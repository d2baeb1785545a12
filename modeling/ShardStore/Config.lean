import ShardStore.Hash
import ShardStore.Routing

/-!
# Configuration

The settings of a store and the two ways to collect them: setters on a `Config`, and a `Builder`
around one. A number of shards of zero asks for the default. The normalisation is applied by the
setter and once more when a store is created, so a store has at least one shard however its
configuration came about.
-/

namespace ShardStore

/-- The number of shards that a request for zero shards gets. -/
def defaultShardCount : UInt64 := 32

/-- Zero asks for the default. -/
def normalizeShardCount (count : UInt64) : UInt64 :=
  if count = 0 then defaultShardCount else count

theorem normalizeShardCount_ne_zero (count : UInt64) : normalizeShardCount count ≠ 0 := by
  unfold normalizeShardCount
  split
  · decide
  · assumption

/-- The slots of a table with room for so many entries: a power of two, of which an eighth stays
free. -/
def slotsFor (capacity : Nat) : Nat :=
  if capacity < 4 then 4
  else if capacity < 8 then 8
  else 1 <<< (Nat.log2 (8 * capacity / 7 - 1) + 1)

/-- Whether room can be asked for that many entries of so many bytes. Eight times their number must
fit in a word. Then the slots, a byte of control for each and 32 bytes around them must fit in half
of the addresses. Whether there is so much memory is another question, which is not asked here. -/
def checkCapacity (entryWidth : Nat) (capacity : UInt64) : Except Fault Unit :=
  if 8 * capacity.toNat < UInt64.size ∧
      slotsFor capacity.toNat * (entryWidth + 1) + 32 ≤ UInt64.size / 2 then
    .ok ()
  else
    .error .capacityOverflow

/-- The bytes that a key takes in a table: an address, a length and a capacity. -/
def keyWidth : Nat := 24

/-- The settings of a store whose router, if it has one, keeps a state of type `σ`. -/
structure Config (σ : Type) where
  /-- The number of shards; zero asks for the default. -/
  shardCount : UInt64 := defaultShardCount
  /-- How keys are hashed. -/
  hasher : Hasher := .fnv32
  /-- Entries that each table is given room for at the start, if any. -/
  capacity : Option UInt64 := none
  /-- How shards are chosen. -/
  routing : Routing σ := .modulo

namespace Config

variable {σ : Type}

instance : Inhabited (Config σ) := ⟨{}⟩

/-- Sets the number of shards. -/
def withShardCount (config : Config σ) (count : UInt64) : Config σ :=
  { config with shardCount := normalizeShardCount count }

/-- Sets how keys are hashed. -/
def withHasher (config : Config σ) (hasher : Hasher) : Config σ :=
  { config with hasher }

/-- Sets the entries that each table is given room for. -/
def withCapacity (config : Config σ) (capacity : UInt64) : Config σ :=
  { config with capacity := some capacity }

/-- Sets how shards are chosen. -/
def withRouting (config : Config σ) (routing : Routing σ) : Config σ :=
  { config with routing }

/-- The number of shards of a store with these settings. -/
def shards (config : Config σ) : Nat :=
  (normalizeShardCount config.shardCount).toNat

theorem shards_pos (config : Config σ) : 0 < config.shards :=
  Nat.pos_of_ne_zero fun h =>
    normalizeShardCount_ne_zero config.shardCount (UInt64.toNat_inj.mp h)

theorem shards_lt (config : Config σ) : config.shards < UInt64.size :=
  UInt64.toNat_lt_size _

/-- The description of the settings. -/
def text (config : Config σ) : RecordText :=
  .fields "Config" [
    ("shard_count", .ofNat config.shardCount.toNat),
    ("hash_function", .atom config.hasher.name),
    ("capacity_per_shard", .ofOption (config.capacity.map fun n => .ofNat n.toNat)),
    ("routing", config.routing.text)]

end Config

/-- Settings under construction. -/
structure Builder (σ : Type) where
  /-- The settings collected so far. -/
  config : Config σ := {}

namespace Builder

variable {σ : Type}

/-- Sets the number of shards. -/
def withShardCount (builder : Builder σ) (count : UInt64) : Builder σ :=
  ⟨builder.config.withShardCount count⟩

/-- Sets how keys are hashed. -/
def withHasher (builder : Builder σ) (hasher : Hasher) : Builder σ :=
  ⟨builder.config.withHasher hasher⟩

/-- Sets the entries that each table is given room for. -/
def withCapacity (builder : Builder σ) (capacity : UInt64) : Builder σ :=
  ⟨builder.config.withCapacity capacity⟩

/-- Sets how shards are chosen. -/
def withRouting (builder : Builder σ) (routing : Routing σ) : Builder σ :=
  ⟨builder.config.withRouting routing⟩

/-- The description of a builder. -/
def text (builder : Builder σ) : RecordText :=
  .fields "ShardedMapBuilder" [("config", builder.config.text)]

end Builder

/-- One setter call, for settings or for a builder. -/
inductive Setting (σ : Type) where
  | shardCount (n : UInt64)
  | hashing (h : Hasher)
  | capacity (n : UInt64)
  | routing (r : Routing σ)

namespace Setting

variable {σ : Type}

/-- Makes the call on settings. -/
def apply (config : Config σ) : Setting σ → Config σ
  | .shardCount n => config.withShardCount n
  | .hashing h => config.withHasher h
  | .capacity n => config.withCapacity n
  | .routing r => config.withRouting r

/-- Makes the call on a builder. -/
def applyBuilder (builder : Builder σ) : Setting σ → Builder σ
  | .shardCount n => builder.withShardCount n
  | .hashing h => builder.withHasher h
  | .capacity n => builder.withCapacity n
  | .routing r => builder.withRouting r

end Setting

/-- The settings after a list of setter calls; a later call overrides an earlier one. -/
def Config.ofSettings {σ : Type} (settings : List (Setting σ)) : Config σ :=
  settings.foldl Setting.apply {}

/-- The builder after a list of setter calls. -/
def Builder.ofSettings {σ : Type} (settings : List (Setting σ)) : Builder σ :=
  settings.foldl Setting.applyBuilder {}

/-- A builder collects what the same calls on settings collect. -/
theorem Builder.ofSettings_config {σ : Type} (settings : List (Setting σ)) :
    (Builder.ofSettings settings).config = Config.ofSettings settings := by
  suffices h : ∀ (builder : Builder σ),
      (settings.foldl Setting.applyBuilder builder).config =
        settings.foldl Setting.apply builder.config from h {}
  intro builder
  induction settings generalizing builder with
  | nil => rfl
  | cons setting rest ih =>
    rw [List.foldl_cons, List.foldl_cons, ih]
    cases setting <;> rfl

end ShardStore
