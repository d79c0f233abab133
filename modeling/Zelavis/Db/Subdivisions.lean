import Zelavis.Db.Named

/-!
# Tenants that are divided

`topology-store.ts` `subdivisionFor`, `naming.ts` and `tenancy.ts`: a tenant is divided into parts, each of
which is stored and routed under a key of its own. The catalog keeps the parts in a plain object, in which
a name finds what the object holds itself or what `Object.prototype` has.
-/

namespace Zelavis.Db

open Lib List

namespace Subdivision

/-! ## Names and namespaces -/

/-- `#`. -/
def HASH : CodeUnit := 0x23

def isLetterOrDigit (u : CodeUnit) : Bool :=
  (0x41 ≤ u.val && u.val ≤ 0x5A) || (0x61 ≤ u.val && u.val ≤ 0x7A) || (0x30 ≤ u.val && u.val ≤ 0x39)

def isTenantPart (u : CodeUnit) : Bool :=
  isLetterOrDigit u || u.val = 0x2E || u.val = 0x5F || u.val = 0x2D

/-- Source: `naming.ts` `isReservedTenantId`. -/
def isReservedTenantId (tenant : TenantId) : Bool :=
  tenant = utf16 "zv" || (utf16 "zv.").isPrefixOf tenant

/-- Source: `naming.ts` `isValidTenantId`. -/
def isValidTenantId (tenant : TenantId) : Bool :=
  (match tenant with
    | [] => false
    | u :: rest => isLetterOrDigit u && rest.all isTenantPart && rest.length ≤ 127) &&
    !isReservedTenantId tenant

def beforeSlash (text : Utf16) : Option Utf16 :=
  if SLASH ∈ text then some (text.takeWhile (· ≠ SLASH)) else none

/-- The tenant a stored record belongs to. Source: `tenancy.ts` `tenantOf`. -/
def tenantOf (space key : Utf16) : Option TenantId :=
  if (utf16 "zv.collection/").isPrefixOf space then some (space.drop (utf16 "zv.collection/").length)
  else if (utf16 "zv.idempotency/").isPrefixOf space then
    some (space.drop (utf16 "zv.idempotency/").length)
  else if (utf16 "doc/").isPrefixOf space then beforeSlash (space.drop (utf16 "doc/").length)
  else if space = utf16 "zv.schema" ∨ space = utf16 "zv.schema.active" then beforeSlash key
  else none

/-! ## The catalog -/

/-- What a plain object of parts has under a name. -/
inductive Member where
  | own (parts : List Utf16)
  /-- What `Object.prototype` has, which is no list of parts. -/
  | inherited

/-- A name `Object.prototype` has something under. -/
def isInherited (name : Utf16) : Bool := (inherited name).isSome

/-- Source: `topology-store.ts` `SubdivisionCatalog`. -/
structure SubdivisionCatalog where
  version : ℕ
  tenants : OrderedMap Utf16 (List Utf16)

/-- Source: `topology-store.ts` `initSubdivisionCatalog`, of a store without a catalog. -/
def initSubdivisionCatalog : SubdivisionCatalog := ⟨1, .empty⟩

namespace SubdivisionCatalog

variable (catalog : SubdivisionCatalog)

/-- Source: `topology-store.ts` `partsOf`. -/
def partsOf (tenant : TenantId) : Option Member :=
  match catalog.tenants.get tenant with
  | some parts => some (.own parts)
  | none => if isInherited tenant then some .inherited else none

/-- The routing keys of a tenant; throws where its parts are no list. Source: `topology-store.ts`
`keysOf`. -/
def keysOf (tenant : TenantId) : Option (List TenantId) :=
  match catalog.partsOf tenant with
  | none => some [tenant]
  | some (.own parts) => some (parts.map fun part => partitionKeyFor tenant (some part))
  | some .inherited => none

end SubdivisionCatalog

/-- Why a tenant is not divided. -/
inductive SubdivisionFault where
  /-- Source: `errors.ts` `SubdivisionInvalid`. -/
  | invalid (tenant : TenantId) (reason : Utf16)
  | thrown

section

variable {α : Type} (tenantRecord : α → Option TenantId)

/-- A call to divide a tenant, and the map and the shards it finds. -/
structure SubdivisionCall (α : Type) where
  map : PartitionMap
  shards : ShardId → Option (Objects α)
  tenant : TenantId
  parts : List Utf16

/-- Whether the shard of a tenant has records of it; nothing where that throws. -/
def isOccupied (call : SubdivisionCall α) : Option Bool :=
  (shardFor call.map call.tenant).bind fun shard =>
    (call.shards shard).elim (some false) fun store =>
      (tenantsOn tenantRecord store).map fun tenants => tenants.contains call.tenant

def joined (parts : List Utf16) : Utf16 := List.intercalate (utf16 ", ") parts

/-- Source: `topology-store.ts` `subdivide`. -/
def subdivide (catalog : SubdivisionCatalog) (call : SubdivisionCall α) :
    Except SubdivisionFault SubdivisionCatalog :=
  let refuse := fun reason => .error (.invalid call.tenant reason)
  match catalog.partsOf call.tenant with
  | some .inherited => .error .thrown
  | some (.own existing) =>
    if existing = call.parts then .ok catalog
    else refuse (utf16 "it is already divided into " ++ joined existing)
  | none =>
    if call.parts.length < 2 then refuse (utf16 "a divided tenant needs at least two parts")
    else if ¬call.parts.Nodup then refuse (utf16 "parts must be distinct")
    else if HASH ∈ call.tenant then
      refuse (utf16 "a tenant whose name contains \"#\" cannot be divided")
    else
      match call.parts.find? fun part => part = [] || HASH ∈ part with
      | some part => refuse (utf16 "part \"" ++ part ++ utf16 "\" is empty or contains \"#\"")
      | none =>
        match isOccupied tenantRecord call with
        | none => .error .thrown
        | some true =>
          refuse (utf16 "it already holds records, and dividing carries none of them with it")
        | some false => .ok ⟨catalog.version + 1, catalog.tenants.insert call.tenant call.parts⟩

/-! ## Runs -/

def afterCall (catalog : SubdivisionCatalog) (call : SubdivisionCall α) : SubdivisionCatalog :=
  (subdivide tenantRecord catalog call).toOption.getD catalog

def catalogOf (calls : List (SubdivisionCall α)) : SubdivisionCatalog :=
  calls.foldl (afterCall tenantRecord) initSubdivisionCatalog

def Divides (calls : List (SubdivisionCall α)) (tenant : TenantId) (parts : List Utf16) : Prop :=
  ∃ before call later catalog, calls = before ++ call :: later ∧ call.tenant = tenant ∧
    call.parts = parts ∧ subdivide tenantRecord (catalogOf tenantRecord before) call = .ok catalog

/-- What holds of the parts of a tenant. -/
structure WellDivided (tenant : TenantId) (parts : List Utf16) : Prop where
  two : 2 ≤ parts.length
  nodup : parts.Nodup
  plain : HASH ∉ tenant
  parts : ∀ part ∈ parts, part ≠ [] ∧ HASH ∉ part
  /-- It is not a name of `Object.prototype`. -/
  own : isInherited tenant = false

variable {tenantRecord} {catalog catalog' : SubdivisionCatalog} {call : SubdivisionCall α}
  {calls : List (SubdivisionCall α)} {tenant : TenantId} {parts : List Utf16}

lemma subdivide_eq_ok (h : subdivide tenantRecord catalog call = .ok catalog') :
    (catalog.tenants.get call.tenant = some call.parts ∧ catalog' = catalog) ∨
      (catalog.tenants.get call.tenant = none ∧ WellDivided call.tenant call.parts ∧
        catalog' = ⟨catalog.version + 1, catalog.tenants.insert call.tenant call.parts⟩) := by
  unfold subdivide SubdivisionCatalog.partsOf at h
  rcases hget : catalog.tenants.get call.tenant with _ | existing
  · rw [hget] at h
    by_cases hinherited : isInherited call.tenant = true
    · rw [if_pos hinherited] at h
      cases h
    · rw [if_neg hinherited] at h
      dsimp only at h
      split_ifs at h with htwo hnodup hhash
      split at h
      · cases h
      · rename_i hfind
        split at h
        · cases h
        · cases h
        · cases h
          refine .inr ⟨rfl, ⟨not_lt.1 htwo, hnodup, hhash, fun part hpart => ?_,
            Bool.eq_false_iff.2 hinherited⟩, rfl⟩
          have hnot := List.find?_eq_none.1 hfind part hpart
          rw [Bool.or_eq_true, decide_eq_true_eq, decide_eq_true_eq, not_or] at hnot
          exact hnot
  · rw [hget] at h
    dsimp only at h
    split_ifs at h with heq
    cases h
    exact .inl ⟨congrArg some heq, rfl⟩

lemma catalogOf_concat : catalogOf tenantRecord (calls ++ [call]) =
    afterCall tenantRecord (catalogOf tenantRecord calls) call := by
  unfold catalogOf
  rw [foldl_append]
  rfl

lemma divides_concat : Divides tenantRecord (calls ++ [call]) tenant parts ↔
    Divides tenantRecord calls tenant parts ∨ (call.tenant = tenant ∧ call.parts = parts ∧
      ∃ catalog, subdivide tenantRecord (catalogOf tenantRecord calls) call = .ok catalog) := by
  constructor
  · rintro ⟨before, c, later, catalog, heq, htenant, hparts, hok⟩
    rcases eq_nil_or_concat later with rfl | ⟨later, last, rfl⟩
    · obtain ⟨rfl, hlast⟩ := append_inj' heq rfl
      cases hlast
      exact .inr ⟨htenant, hparts, catalog, hok⟩
    · rw [concat_eq_append, ← cons_append, ← append_assoc] at heq
      obtain ⟨rfl, -⟩ := append_inj' heq rfl
      exact .inl ⟨before, c, later, catalog, rfl, htenant, hparts, hok⟩
  · rintro (⟨before, c, later, catalog, rfl, htenant, hparts, hok⟩ | ⟨htenant, hparts, catalog, hok⟩)
    · exact ⟨before, c, later ++ [call], catalog, by simp, htenant, hparts, hok⟩
    · exact ⟨calls, call, [], catalog, rfl, htenant, hparts, hok⟩

variable (tenantRecord) in
lemma get_catalogOf (calls : List (SubdivisionCall α)) :
    (∀ tenant parts, (catalogOf tenantRecord calls).tenants.get tenant = some parts ↔
      Divides tenantRecord calls tenant parts) ∧
    ∀ tenant parts, Divides tenantRecord calls tenant parts → WellDivided tenant parts := by
  induction calls using List.reverseRecOn with
  | nil =>
    refine ⟨fun tenant parts => ⟨fun h => ?_, fun h => ?_⟩, fun tenant parts h => ?_⟩
    · cases h
    · obtain ⟨before, c, later, -, heq, -⟩ := h
      simp at heq
    · obtain ⟨before, c, later, -, heq, -⟩ := h
      simp at heq
  | append_singleton calls call ih =>
    obtain ⟨ihget, ihwell⟩ := ih
    rw [catalogOf_concat]
    unfold afterCall
    rcases hok : subdivide tenantRecord (catalogOf tenantRecord calls) call with fault | catalog
    · refine ⟨fun tenant parts => ?_, fun tenant parts h => ?_⟩
      · rw [divides_concat, ← ihget]
        refine ⟨.inl, fun h => h.resolve_right ?_⟩
        rintro ⟨-, -, catalog, hok'⟩
        cases hok.symm.trans hok'
      · rw [divides_concat] at h
        refine ihwell tenant parts (h.resolve_right ?_)
        rintro ⟨-, -, catalog, hok'⟩
        cases hok.symm.trans hok'
    · obtain ⟨hsame, rfl⟩ | ⟨hnew, hwell, rfl⟩ := subdivide_eq_ok hok
      · refine ⟨fun tenant parts => ?_, fun tenant parts h => ?_⟩
        · rw [divides_concat]
          refine ⟨fun h => .inl ((ihget tenant parts).1 h), fun h => ?_⟩
          obtain h | ⟨rfl, rfl, -⟩ := h
          · exact (ihget tenant parts).2 h
          · exact hsame
        · rw [divides_concat] at h
          obtain h | ⟨rfl, rfl, -⟩ := h
          · exact ihwell tenant parts h
          · exact ihwell _ _ ((ihget _ _).1 hsame)
      · refine ⟨fun tenant parts => ?_, fun tenant parts h => ?_⟩
        · rw [divides_concat]
          show (OrderedMap.insert _ _ _).get tenant = some parts ↔ _
          rw [OrderedMap.get_insert]
          by_cases htenant : tenant = call.tenant
          · subst htenant
            rw [if_pos rfl, ← ihget, hnew]
            refine ⟨fun h => .inr ⟨rfl, Option.some.inj h, _, hok⟩, fun h => ?_⟩
            obtain h | ⟨-, rfl, -⟩ := h
            · cases h
            · rfl
          · rw [if_neg htenant, ihget]
            exact ⟨.inl, fun h => h.resolve_right fun h => htenant h.1.symm⟩
        · rw [divides_concat] at h
          obtain h | ⟨rfl, rfl, -⟩ := h
          · exact ihwell tenant parts h
          · exact hwell

/-! ## Routing keys -/

variable (tenantRecord)

def RoutesApart (calls : List (SubdivisionCall α)) (tenant tenant' : TenantId) : Prop :=
  ∃ keys keys', (catalogOf tenantRecord calls).keysOf tenant = some keys ∧
    (catalogOf tenantRecord calls).keysOf tenant' = some keys' ∧ keys.Disjoint keys'

/-- The routing keys of a tenant are read back off the namespaces of their collections and documents. -/
def ReadsBack (calls : List (SubdivisionCall α)) (tenant : TenantId) : Prop :=
  ∀ keys, (catalogOf tenantRecord calls).keysOf tenant = some keys → ∀ routingKey ∈ keys,
    ∀ collection key, tenantOf (collectionNs routingKey) key = some routingKey ∧
      tenantOf (documentNs routingKey collection) key = some routingKey

variable {tenantRecord}

lemma tenantOf_collectionNs (tenant key : Utf16) : tenantOf (collectionNs tenant) key = some tenant := by
  have hprefix : (utf16 "zv.collection/").isPrefixOf (collectionNs tenant) = true :=
    List.isPrefixOf_iff_prefix.2 (prefix_append _ _)
  unfold tenantOf
  rw [if_pos hprefix]
  exact congrArg some drop_left

/-- What is before the first slash of a document's namespace is its tenant, where that holds none. -/
theorem tenantOf_documentNs {tenant : TenantId} {collection key : Utf16} :
    tenantOf (documentNs tenant collection) key = some tenant ↔ SLASH ∉ tenant := by
  have hns : documentNs tenant collection = utf16 "doc/" ++ (tenant ++ SLASH :: collection) := by
    unfold documentNs
    rw [append_assoc, append_assoc]
    rfl
  have hof : tenantOf (documentNs tenant collection) key =
      some ((tenant ++ SLASH :: collection).takeWhile (· ≠ SLASH)) := by
    have hslash : SLASH ∈ tenant ++ SLASH :: collection := by simp
    rw [hns]
    unfold tenantOf
    rw [if_neg (by rw [Bool.not_eq_true]; rfl), if_neg (by rw [Bool.not_eq_true]; rfl),
      if_pos (List.isPrefixOf_iff_prefix.2 (prefix_append _ _)), drop_left]
    unfold beforeSlash
    rw [if_pos hslash]
  rw [hof, Option.some.injEq]
  constructor
  · intro h hslash
    rw [← h] at hslash
    have hall := List.all_eq_true.1 all_takeWhile SLASH hslash
    exact of_decide_eq_true hall rfl
  · intro h
    rw [takeWhile_append_of_pos fun u hu => by simpa using ne_of_mem_of_not_mem hu h]
    simp

lemma not_mem_of_isValidTenantId (h : isValidTenantId tenant = true) : HASH ∉ tenant ∧ SLASH ∉ tenant := by
  cases tenant with
  | nil => exact ⟨not_mem_nil, not_mem_nil⟩
  | cons u rest =>
    have hparts : ∀ c ∈ u :: rest, isTenantPart c = true := by
      simp only [isValidTenantId, Bool.and_eq_true, List.all_eq_true] at h
      intro c hc
      obtain rfl | hc := mem_cons.1 hc
      · unfold isTenantPart
        rw [h.1.1.1, Bool.true_or, Bool.true_or, Bool.true_or]
      · exact h.1.1.2 c hc
    refine ⟨fun hmem => ?_, fun hmem => ?_⟩
    · have hhash := hparts HASH hmem
      revert hhash
      decide
    · have hslash := hparts SLASH hmem
      revert hslash
      decide

lemma keysOf_of_get {parts : List Utf16} (h : catalog.tenants.get tenant = some parts) :
    catalog.keysOf tenant = some (parts.map fun part => partitionKeyFor tenant (some part)) := by
  unfold SubdivisionCatalog.keysOf SubdivisionCatalog.partsOf
  rw [h]

lemma keysOf_of_none (h : catalog.tenants.get tenant = none) :
    catalog.keysOf tenant = if isInherited tenant then none else some [tenant] := by
  unfold SubdivisionCatalog.keysOf SubdivisionCatalog.partsOf
  rw [h]
  split_ifs <;> rfl

variable (tenantRecord) in
lemma keysOf_isSome (calls : List (SubdivisionCall α)) (tenant : TenantId) :
    ((catalogOf tenantRecord calls).keysOf tenant).isSome = !isInherited tenant := by
  rcases hget : (catalogOf tenantRecord calls).tenants.get tenant with _ | parts
  · rw [keysOf_of_none hget]
    cases isInherited tenant <;> rfl
  · obtain ⟨hdivides, hwell⟩ := get_catalogOf tenantRecord calls
    rw [keysOf_of_get hget, (hwell tenant parts ((hdivides tenant parts).1 hget)).own]
    rfl

lemma mem_keysOf {keys : List TenantId} (h : catalog.keysOf tenant = some keys) {key : TenantId}
    (hkey : key ∈ keys) : key = tenant ∨ ∃ part, key = tenant ++ HASH :: part := by
  rcases hget : catalog.tenants.get tenant with _ | parts
  · rw [keysOf_of_none hget] at h
    split_ifs at h
    cases h
    exact .inl (mem_singleton.1 hkey)
  · rw [keysOf_of_get hget] at h
    cases h
    obtain ⟨part, -, rfl⟩ := List.mem_map.1 hkey
    refine .inr ⟨part, ?_⟩
    show tenant ++ PART_SEPARATOR ++ part = _
    rw [append_assoc]
    rfl

lemma disjoint_keysOf {tenant tenant' : TenantId} {keys keys' : List TenantId}
    (hkeys : catalog.keysOf tenant = some keys) (hkeys' : catalog.keysOf tenant' = some keys')
    (h : HASH ∉ tenant) (h' : HASH ∉ tenant') (hne : tenant ≠ tenant') : keys.Disjoint keys' := by
  intro key hmem hmem'
  have hhash : ∀ {t part : Utf16}, HASH ∈ t ++ HASH :: part := by simp
  obtain rfl | ⟨part, rfl⟩ := mem_keysOf hkeys hmem
  · obtain rfl | ⟨part', rfl⟩ := mem_keysOf hkeys' hmem'
    · exact hne rfl
    · exact h hhash
  · obtain rfl | ⟨part', heq⟩ := mem_keysOf hkeys' hmem'
    · exact h' hhash
    · exact hne (append_cons_inj h h' heq).1

lemma readsBack_iff (calls : List (SubdivisionCall α)) (hvalid : isValidTenantId tenant = true) :
    ReadsBack tenantRecord calls tenant ↔
      ∀ parts, Divides tenantRecord calls tenant parts → ∀ part ∈ parts, SLASH ∉ part := by
  obtain ⟨hdivides, -⟩ := get_catalogOf tenantRecord calls
  have hslash : SLASH ∉ tenant := (not_mem_of_isValidTenantId hvalid).2
  have hkey : ∀ part, SLASH ∉ partitionKeyFor tenant (some part) ↔ SLASH ∉ part := fun part => by
    have hseparator : SLASH ∉ PART_SEPARATOR := by decide
    unfold partitionKeyFor
    simp [hslash, hseparator]
  constructor
  · intro h parts hparts part hpart
    rw [← hkey part]
    have hback := h _ (keysOf_of_get ((hdivides tenant parts).2 hparts)) _ (List.mem_map_of_mem hpart)
    exact tenantOf_documentNs.1 (hback [] []).2
  · intro h keys hkeys key hmem collection text
    refine ⟨tenantOf_collectionNs _ _, tenantOf_documentNs.2 ?_⟩
    rcases hget : (catalogOf tenantRecord calls).tenants.get tenant with _ | parts
    · rw [keysOf_of_none hget] at hkeys
      split_ifs at hkeys
      cases hkeys
      rw [mem_singleton.1 hmem]
      exact hslash
    · rw [keysOf_of_get hget] at hkeys
      cases hkeys
      obtain ⟨part, hpart, rfl⟩ := List.mem_map.1 hmem
      exact (hkey part).2 (h parts ((hdivides tenant parts).1 hget) part hpart)

/-- `partsOf` takes no tenant for divided that is not, unless its name is one of `Object.prototype`. -/
theorem partsOf_iff (calls : List (SubdivisionCall α)) (tenant : TenantId) :
    ((catalogOf tenantRecord calls).partsOf tenant = none ↔
      ∀ parts, ¬Divides tenantRecord calls tenant parts) ↔ isInherited tenant = false := by
  obtain ⟨hdivides, hwell⟩ := get_catalogOf tenantRecord calls
  constructor
  · intro h
    by_contra hinherited
    rw [Bool.not_eq_false] at hinherited
    have hnever : ∀ parts, ¬Divides tenantRecord calls tenant parts := fun parts hparts => by
      rw [(hwell tenant parts hparts).own] at hinherited
      cases hinherited
    have hnone := h.2 hnever
    unfold SubdivisionCatalog.partsOf at hnone
    rw [hinherited] at hnone
    split at hnone <;> cases hnone
  · intro hown
    unfold SubdivisionCatalog.partsOf
    rcases hget : (catalogOf tenantRecord calls).tenants.get tenant with _ | parts
    · rw [hown]
      refine ⟨fun _ parts hparts => ?_, fun _ => rfl⟩
      cases hget.symm.trans ((hdivides tenant parts).2 hparts)
    · refine ⟨fun h => (by cases h), fun h => ?_⟩
      exact absurd ((hdivides tenant parts).1 hget) (h parts)

variable (tenantRecord)

/-- However tenants have been divided: the routing keys of two tenants do not meet and are read back off
namespaces, exactly where neither name is one of `Object.prototype` and no part of theirs holds a slash;
and `partsOf` finds nothing exactly for the tenants that were never divided, exactly where the name is
none of `Object.prototype`. -/
theorem routes_iff (calls : List (SubdivisionCall α)) :
    (∀ tenant tenant', isValidTenantId tenant = true → isValidTenantId tenant' = true → tenant ≠ tenant' →
      ((RoutesApart tenantRecord calls tenant tenant' ∧ ReadsBack tenantRecord calls tenant ∧
          ReadsBack tenantRecord calls tenant') ↔ isInherited tenant = false ∧ isInherited tenant' = false ∧
          (∀ parts, Divides tenantRecord calls tenant parts → ∀ part ∈ parts, SLASH ∉ part) ∧
          ∀ parts, Divides tenantRecord calls tenant' parts → ∀ part ∈ parts, SLASH ∉ part)) ∧
    ∀ tenant, (((catalogOf tenantRecord calls).partsOf tenant = none ↔
      ∀ parts, ¬Divides tenantRecord calls tenant parts) ↔ isInherited tenant = false) := by
  refine ⟨fun tenant tenant' hvalid hvalid' hne => ?_, partsOf_iff calls⟩
  rw [readsBack_iff calls hvalid, readsBack_iff calls hvalid', ← and_assoc (a := isInherited tenant = false)]
  refine and_congr_left fun _ => ⟨fun h => ?_, fun h => ?_⟩
  · obtain ⟨keys, keys', hkeys, hkeys', -⟩ := h
    have hsome := keysOf_isSome tenantRecord calls tenant
    have hsome' := keysOf_isSome tenantRecord calls tenant'
    rw [hkeys] at hsome
    rw [hkeys'] at hsome'
    rw [Option.isSome_some, eq_comm, Bool.not_eq_true'] at hsome hsome'
    exact ⟨hsome, hsome'⟩
  · have hsome : ∀ t, isInherited t = false →
        ∃ keys, (catalogOf tenantRecord calls).keysOf t = some keys := fun t ht => by
      refine Option.isSome_iff_exists.1 ?_
      rw [keysOf_isSome tenantRecord, ht]
      rfl
    obtain ⟨keys, hkeys⟩ := hsome tenant h.1
    obtain ⟨keys', hkeys'⟩ := hsome tenant' h.2
    exact ⟨keys, keys', hkeys, hkeys', disjoint_keysOf hkeys hkeys'
      (not_mem_of_isValidTenantId hvalid).1 (not_mem_of_isValidTenantId hvalid').1 hne⟩

end

/-! ## Two tenants that are divided -/

def oneRange : PartitionMap := ⟨1, 1, [⟨0, 1, utf16 "a"⟩]⟩

def divide (tenant : TenantId) (parts : List Utf16) : SubdivisionCall TenantId :=
  ⟨oneRange, fun _ => none, tenant, parts⟩

def plainParts : SubdivisionCall TenantId := divide (utf16 "acme") [utf16 "eu", utf16 "us"]

def slashedParts : SubdivisionCall TenantId := divide (utf16 "acme") [utf16 "eu/1", utf16 "us"]

lemma parts_of_divides {calls : List (SubdivisionCall TenantId)} {tenant : TenantId}
    {parts parts' : List Utf16} (h : (catalogOf some calls).tenants.get tenant = some parts)
    (hparts : Divides some calls tenant parts') : parts' = parts := by
  have hget := ((get_catalogOf _ calls).1 tenant parts').2 hparts
  exact Option.some.inj (hget.symm.trans h)

theorem routes_plainParts : RoutesApart some [plainParts] (utf16 "acme") (utf16 "shop") ∧
    ReadsBack some [plainParts] (utf16 "acme") ∧ ReadsBack some [plainParts] (utf16 "shop") := by
  refine ((routes_iff some [plainParts]).1 (utf16 "acme") (utf16 "shop") (by decide) (by decide)
    (by decide)).2 ⟨by decide, by decide, fun parts hparts part hpart => ?_, fun parts hparts => ?_⟩
  · have hget : (catalogOf some [plainParts]).tenants.get (utf16 "acme") =
        some [utf16 "eu", utf16 "us"] := by decide
    rw [parts_of_divides hget hparts] at hpart
    revert part
    decide
  · have hnone : (catalogOf some [plainParts]).tenants.get (utf16 "shop") = none := by decide
    cases hnone.symm.trans (((get_catalogOf _ [plainParts]).1 (utf16 "shop") parts).2 hparts)

/-- A part with a slash is accepted, and its documents are read back as another tenant's; and a tenant
called after a method of `Object.prototype` is taken for a divided one. -/
theorem not_routes : ¬∀ calls : List (SubdivisionCall TenantId),
    (∀ tenant tenant', isValidTenantId tenant = true → isValidTenantId tenant' = true →
      tenant ≠ tenant' → RoutesApart some calls tenant tenant' ∧ ReadsBack some calls tenant ∧
        ReadsBack some calls tenant') ∧ ∀ tenant, ((catalogOf some calls).partsOf tenant = none ↔
      ∀ parts, ¬Divides some calls tenant parts) := by
  intro h
  have hback := ((h [slashedParts]).1 (utf16 "acme") (utf16 "shop") (by decide) (by decide)
    (by decide)).2.1 [utf16 "acme#eu/1", utf16 "acme#us"] (by decide) (utf16 "acme#eu/1")
      List.mem_cons_self (utf16 "posts") (utf16 "p1")
  revert hback
  decide

end Subdivision

end Zelavis.Db
