import Zelavis.Db.Objects

/-!
# Where a tenant lives

`topology.ts` and `topology-store.ts`: a tenant hashes to a virtual range and a partition map
places ranges on shards. `update` proposes another map, and carries routing and no data.
-/

namespace Zelavis.Db

open Lib List Option

/-- Source: `topology.ts` `TenantId`. -/
abbrev TenantId := Utf16

/-- Source: `topology.ts` `ShardId`. -/
abbrev ShardId := Utf16

/-- `PART_SEPARATOR`. -/
def PART_SEPARATOR : Utf16 := utf16 "#"

/-- The key a part of a tenant is stored and routed under. Source: `topology.ts`
`partitionKeyFor`. -/
def partitionKeyFor (tenant : TenantId) : Option Utf16 → TenantId
  | none => tenant
  | some part => tenant ++ PART_SEPARATOR ++ part

/-- A run of virtual ranges on one shard, the second end exclusive. Source: `topology.ts`
`RangePlacement`. -/
structure RangePlacement where
  first : ℕ
  upto : ℕ
  shard : ShardId
  deriving DecidableEq

/-- Source: `topology.ts` `PartitionMap`. -/
structure PartitionMap where
  version : ℕ
  virtualRanges : ℕ
  placements : List RangePlacement
  deriving DecidableEq

/-! ## Routing -/

/-- FNV-1a over the code units, in 32 bits. Source: `topology.ts` `hash`. -/
def hash (value : Utf16) : ℕ :=
  value.foldl (fun h unit => (h ^^^ unit.val) * 0x01000193 % 2 ^ 32) 0x811c9dc5

/-- Source: `topology.ts` `virtualRangeFor`. -/
def virtualRangeFor (map : PartitionMap) (tenant : TenantId) : ℕ := hash tenant % map.virtualRanges

def PartitionMap.placedAt (map : PartitionMap) (range : ℕ) : Option ShardId :=
  (map.placements.find? fun p => p.first ≤ range && range < p.upto).map RangePlacement.shard

/-- The shard of a tenant; throws where the map does not place its range. Source: `topology.ts`
`shardFor`. -/
def shardFor (map : PartitionMap) (tenant : TenantId) : Option ShardId :=
  map.placedAt (virtualRangeFor map tenant)

/-- Every shard a map places a range on, in placement order. Source: `topology.ts` `shardsOf`. -/
def shardsOf (map : PartitionMap) : List ShardId :=
  (map.placements.map RangePlacement.shard).eraseDups

/-! ## Whole maps -/

/-- A map that cannot be stored. Source: `errors.ts` `PartitionMapInvalid`. -/
structure PartitionMapInvalid where
  version : ℕ
  reason : String
  deriving DecidableEq

/-- Placements in order, from a range on: each starts where the one before it ends. -/
def unplacedFrom (cursor virtualRanges : ℕ) : List RangePlacement → Option String
  | [] =>
    if cursor ≠ virtualRanges then some s!"ranges {cursor}..{virtualRanges} are unplaced" else none
  | p :: rest =>
    if p.upto ≤ p.first then some s!"placement {p.first}..{p.upto} is empty or inverted"
    else if p.first < cursor then
      some s!"ranges {p.first}..{p.upto} overlap an earlier placement"
    else if p.first ≠ cursor then some s!"ranges {cursor}..{p.first} are unplaced"
    else unplacedFrom p.upto virtualRanges rest

/-- Source: `topology-store.ts` `validatePartitionMap`. -/
def validatePartitionMap (map : PartitionMap) : Option PartitionMapInvalid :=
  if map.virtualRanges ≤ 0 then some ⟨map.version, "virtualRanges must be positive"⟩
  else
    let ordered := map.placements.insertionSort fun a b => a.first ≤ b.first
    (unplacedFrom 0 map.virtualRanges ordered).map (⟨map.version, ·⟩)

variable {map : PartitionMap}

section

variable (h : validatePartitionMap map = none)
include h

lemma virtualRangeFor_lt
    (tenant : TenantId) : virtualRangeFor map tenant < map.virtualRanges := by
  unfold validatePartitionMap at h
  split_ifs at h with hpos
  exact Nat.mod_lt _ (by omega)

end

variable {tenant : TenantId}

/-- `TENANT_COLUMN`. -/
def TENANT_COLUMN : Utf16 := utf16 "zv.tenant"

/-- `TENANT_MARKER`. -/
def TENANT_MARKER : Utf16 := 0 :: utf16 "tenant"

/-- `TENANT_NAMESPACE`. -/
def TENANT_NAMESPACE : Utf16 := utf16 "zv.tenant"

/-- The namespace of a tenant's collection records. Source: `documents.ts` `collectionNs`. -/
def collectionNs (tenant : TenantId) : Utf16 := utf16 "zv.collection/" ++ tenant

/-- `TOPOLOGY_NS`. -/
def TOPOLOGY_NS : Utf16 := utf16 "zv.topology"

/-- `TOPOLOGY_KEY`. -/
def TOPOLOGY_KEY : Utf16 := utf16 "partition-map"

variable {next : PartitionMap} {key : TenantId}

section

variable {α : Type} (tenantRecord : α → Option TenantId)

/-- The tenants recorded on a shard, sorted; throws at a record that names none. Source:
`topology-store.ts` `tenantsOn`. -/
def tenantsOn (store : Objects α) : Option (List TenantId) := do
  let objects :=
    (store.resolve (.equals TENANT_COLUMN (.string TENANT_MARKER))).filterMap store.read
  let out ← objects.mapM tenantRecord
  return out.insertionSort (· ≤ ·)

/-- A topology at work. Source: `topology-store.ts` `topologyFor`. -/
structure Topology (α : Type) where
  map : PartitionMap
  whole : validatePartitionMap map = none
  topologyStore : Objects PartitionMap
  shards : ShardId → Option (Objects α)
  partsOf : TenantId → Option (List Utf16)

/-- Source: `topology-store.ts` `writePartitionMap`. -/
def writePartitionMap (store : Objects PartitionMap) (map : PartitionMap) : Objects PartitionMap :=
  let at_ : Seq × Objects PartitionMap :=
    match store.lookup TOPOLOGY_NS TOPOLOGY_KEY with
    | some existing => (existing, store)
    | none => store.nextSeq
  at_.2.commit [.put at_.1 map {} (some ⟨TOPOLOGY_NS, TOPOLOGY_KEY⟩)]

/-! ## Moving ranges -/

/-- A range a map moves and the tenants on it. Source: `topology-store.ts` `RangeMove`. -/
structure RangeMove where
  range : ℕ
  source : ShardId
  target : ShardId
  tenants : List TenantId
  deriving DecidableEq

/-- Why a map was refused. -/
inductive Refusal where
  /-- `PartitionMapInvalid`. -/
  | invalid (reason : PartitionMapInvalid)
  | rangeNotEmpty (range : ℕ) (source target : ShardId) (tenants : List TenantId)
  | defect
  deriving DecidableEq

namespace Topology

variable (T : Topology α)

/-- Every routing key a tenant's data lives under. Source: `topology-store.ts` `keysOf`. -/
def keysOf (tenant : TenantId) : List TenantId :=
  match T.partsOf tenant with
  | none => [tenant]
  | some parts => parts.map fun part => partitionKeyFor tenant (some part)

def residents (shard : ShardId) : Option (List TenantId) :=
  match T.shards shard with
  | none => some []
  | some store => (tenantsOn tenantRecord store).map fun tenants =>
      tenants.filter fun tenant => shardFor T.map tenant = some shard

def occupants : Option (List TenantId) := ((shardsOf T.map).mapM (T.residents tenantRecord)).map List.flatten

def moveOf (next : PartitionMap) (occupants : List TenantId) (range : ℕ) : Option RangeMove :=
  match T.map.placedAt range, next.placedAt range with
  | some source, some target =>
    if source = target then none
    else some ⟨range, source, target, occupants.filter fun tenant =>
      virtualRangeFor T.map tenant = range⟩
  | _, _ => none

/-- Which ranges a proposed map moves, and which tenants are on them. Source:
`topology-store.ts` `plan`. -/
def plan (next : PartitionMap) : Option (List RangeMove) :=
  (T.occupants tenantRecord).map fun occupants =>
    (List.range T.map.virtualRanges).filterMap (T.moveOf next occupants)

/-- Source: `topology-store.ts` `store`. -/
def store (next : PartitionMap) : Except Refusal PartitionMap × Topology α :=
  match h : validatePartitionMap next with
  | some invalid => (.error (.invalid invalid), T)
  | none =>
    if next.version ≤ T.map.version then
      (.error (.invalid ⟨next.version, s!"version must advance past {T.map.version}"⟩), T)
    else
      (.ok next, { T with
        map := next, whole := h, topologyStore := writePartitionMap T.topologyStore next })

/-- Store a new map, unless it moves a range that tenants occupy. Source: `topology-store.ts`
`update`. -/
def update (next : PartitionMap) : Except Refusal PartitionMap × Topology α :=
  match T.plan tenantRecord next with
  | none => (.error .defect, T)
  | some moves =>
    match moves.filter fun move => move.tenants ≠ [] with
    | first :: rest =>
      (.error (.rangeNotEmpty first.range first.source first.target
        ((first :: rest).flatMap RangeMove.tenants)), T)
    | [] => T.store next

/-! ## Who holds what -/

def Holds (key : TenantId) : Prop :=
  ∃ shard store, shardFor T.map key = some shard ∧ T.shards shard = some store ∧
    ∃ seq held name, store.held.get seq = some held ∧ held.identity = some ⟨collectionNs key, name⟩

def Recorded (key : TenantId) : Prop :=
  ∃ shard store, shardFor T.map key = some shard ∧ T.shards shard = some store ∧
    ∃ seq ∈ store.resolve (.equals TENANT_COLUMN (.string TENANT_MARKER)), ∃ body,
      store.read seq = some body ∧ tenantRecord body = some key

/-- A map that is stored: whole, newer, and moving only ranges nobody recorded is on. -/
def Admissible (next : PartitionMap) : Prop :=
  validatePartitionMap next = none ∧ T.map.version < next.version ∧
    ∃ moves, T.plan tenantRecord next = some moves ∧ ∀ move ∈ moves, move.tenants = []

/-- The next map has the ranges a routing key hashes to, before and after, on one shard. Where the
check does not see the key, because its marker is missing or its range does not exist any more, the
next map has to leave its route alone. -/
def RangesAgree (next : PartitionMap) : Prop :=
  T.Admissible tenantRecord next → ∀ tenant, ∀ key ∈ T.keysOf tenant, T.Holds key →
    let seen := virtualRangeFor T.map key < next.virtualRanges ∧ T.Recorded tenantRecord key
    (seen → next.placedAt (virtualRangeFor T.map key) = next.placedAt (virtualRangeFor next key)) ∧
      (¬seen → shardFor next key = shardFor T.map key)

/-! ## What an update does -/

lemma rangesAgree_of_eq (hranges : next.virtualRanges = T.map.virtualRanges)
    (hrec : ∀ key, T.Holds key → T.Recorded tenantRecord key) : T.RangesAgree tenantRecord next := by
  intro _ tenant key _ hkey
  have hseen : virtualRangeFor T.map key < next.virtualRanges ∧ T.Recorded tenantRecord key := by
    rw [hranges]
    exact ⟨virtualRangeFor_lt T.whole key, hrec key hkey⟩
  refine ⟨fun _ => ?_, fun h => absurd hseen h⟩
  unfold virtualRangeFor
  rw [hranges]

end Topology

/-! ## A map with more ranges -/

end

end Zelavis.Db
