import ShardStore.Table
import ShardStore.Text.Record

/-!
# Snapshots

A snapshot holds the entries that the shards had when it was opened and hands them out one at a
time. Its total is fixed when it is opened, and it knows how many entries it has handed out, so it
can always say how many are left. Later writes to the store do not show in it.
-/

namespace ShardStore

/-- The entries captured from a store, with a position up to which they were handed out. -/
structure Snapshot (V : Type) where
  /-- The captured entries, shard by shard. -/
  entries : Array (String × V)
  /-- How many of them were handed out. -/
  yielded : Nat := 0

namespace Snapshot

variable {V : Type}

instance : Inhabited (Snapshot V) := ⟨⟨#[], 0⟩⟩

/-- The snapshot of a row of tables, none of it handed out. -/
def ofTables (tables : List (Table V)) : Snapshot V :=
  { entries := (tables.flatMap fun table => table.toList).toArray }

/-- Number of entries captured. -/
def total (snapshot : Snapshot V) : Nat :=
  snapshot.entries.size

/-- Hands out the next entry, if one is left. -/
def next (snapshot : Snapshot V) : Option (String × V) × Snapshot V :=
  match snapshot.entries[snapshot.yielded]? with
  | some entry => (some entry, { snapshot with yielded := snapshot.yielded + 1 })
  | none => (none, snapshot)

/-- Hands out up to `count` entries. -/
def take (snapshot : Snapshot V) : Nat → List (String × V) × Snapshot V
  | 0 => ([], snapshot)
  | count + 1 =>
    match snapshot.next with
    | (some entry, snapshot) =>
      let (entries, snapshot) := snapshot.take count
      (entry :: entries, snapshot)
    | (none, snapshot) => ([], snapshot)

/-- The snapshot with all its entries handed out. -/
def drain (snapshot : Snapshot V) : Snapshot V :=
  { snapshot with yielded := max snapshot.yielded snapshot.total }

/-- The entries handed out so far. -/
def seen (snapshot : Snapshot V) : List (String × V) :=
  snapshot.entries.toList.take snapshot.yielded

/-- Bounds on the number of entries left: no promise from below, the exact number from above. -/
def sizeHint (snapshot : Snapshot V) : Nat × Option Nat :=
  (0, some (snapshot.total - snapshot.yielded))

/-- The description of a snapshot. -/
def text (snapshot : Snapshot V) : RecordText :=
  .fields "Snapshot" [
    ("total", .ofNat snapshot.total),
    ("yielded", .ofNat snapshot.yielded)]

@[simp] theorem total_next (snapshot : Snapshot V) : snapshot.next.2.total = snapshot.total := by
  unfold next
  split <;> rfl

/-- While entries are left, one is handed out and counted. -/
theorem next_of_lt {snapshot : Snapshot V} (h : snapshot.yielded < snapshot.entries.size) :
    snapshot.next =
      (some snapshot.entries[snapshot.yielded],
        { snapshot with yielded := snapshot.yielded + 1 }) := by
  simp only [next, Array.getElem?_eq_getElem h]

/-- When none is left, nothing changes. -/
theorem next_of_le {snapshot : Snapshot V} (h : snapshot.entries.size ≤ snapshot.yielded) :
    snapshot.next = (none, snapshot) := by
  simp only [next, Array.getElem?_eq_none h]

/-- Up to so many entries are those that come next. -/
theorem take_fst (snapshot : Snapshot V) (count : Nat) :
    (snapshot.take count).1 = (snapshot.entries.toList.drop snapshot.yielded).take count := by
  induction count generalizing snapshot with
  | zero => rfl
  | succ count ih =>
    rw [take]
    by_cases h : snapshot.yielded < snapshot.entries.size
    · rw [next_of_lt h, List.drop_eq_getElem_cons (by simpa using h), List.take_succ_cons]
      simp only [ih, Array.getElem_toList]
    · rw [next_of_le (Nat.le_of_not_lt h), List.drop_eq_nil_of_le (by simpa using h), List.take_nil]

end Snapshot

end ShardStore
