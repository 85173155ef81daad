import Std.Data.HashMap
import TimedCache.Saturation

/-!
A map from keys to slots, split into shards. A hash sends each key to one shard by the bits under
the mask, so a key is only ever looked for in its own shard. The number of shards is a power of
two, and the answers do not depend on it.
-/

namespace TimedCache

/-- A sharded map; `hash` routes the keys. The type keeps one shard for every masked hash. -/
structure Store (hash : String → UInt64) (α : Type) where
  mask : Nat
  shards : Array (Std.HashMap String α)
  size_shards : shards.size = mask + 1

namespace Store

variable {hash : String → UInt64} {α : Type}

def maxShards : Nat := 9223372036854775808

def defaultShards : Nat := 256

/-- The least power of two that is at least `n`. -/
def shardsFor (n : Nat) : Nat := if n ≤ 1 then 1 else 1 <<< ((n - 1).log2 + 1)

/-- An empty store of at least `n` shards, as few as a power of two allows. -/
def withShards (n : Nat) : Except Overflow (Store hash α) :=
  if n ≤ maxShards then
    let mask := shardsFor n - 1
    .ok { mask, shards := Array.replicate (mask + 1) ∅, size_shards := by simp }
  else
    .error .shardCount

/-- Whether there can be a table of the shards for `n`; each takes 56 bytes. -/
def fits (n : Nat) : Bool := tableFits (shardsFor n) 56

def allocate (n : Nat) : Except Overflow (Store hash α) :=
  if fits n then withShards n else .error .tableSize

def shardCount (s : Store hash α) : Nat := s.shards.size

def shardOf (s : Store hash α) (key : String) : Nat := (hash key).toNat &&& s.mask

theorem shardOf_lt (s : Store hash α) (key : String) : s.shardOf key < s.shards.size := by
  have hle : s.shardOf key ≤ s.mask := Nat.and_le_right
  rw [s.size_shards]
  omega

def shard (s : Store hash α) (key : String) : Std.HashMap String α :=
  have bound := s.shardOf_lt key
  s.shards[s.shardOf key]

def get? (s : Store hash α) (key : String) : Option α := (s.shard key)[key]?

def onShard (s : Store hash α) (key : String)
    (change : Std.HashMap String α → Std.HashMap String α) : Store hash α :=
  { mask := s.mask
    shards := s.shards.modify (s.shardOf key) change
    size_shards := by rw [Array.size_modify, s.size_shards] }

def insert (s : Store hash α) (key : String) (slot : α) : Store hash α :=
  s.onShard key (·.insert key slot)

def erase (s : Store hash α) (key : String) : Store hash α :=
  s.onShard key (·.erase key)

def take (s : Store hash α) (key : String) : Option α × Store hash α :=
  match s.get? key with
  | some slot => (some slot, s.erase key)
  | none => (none, s)

/-- Empties the slot of a key, provided that its occupant passes the test. -/
def takeIf (s : Store hash α) (key : String) (test : α → Bool) : Option α × Store hash α :=
  match s.get? key with
  | some slot => if test slot then (some slot, s.erase key) else (none, s)
  | none => (none, s)

/-- The occupant of a slot; an empty slot is filled by running `make`. The flag tells whether
that happened. -/
def getOrInsert {m : Type → Type} [Monad m] (s : Store hash α) (key : String) (make : m α) :
    m ((α × Bool) × Store hash α) :=
  match s.get? key with
  | some slot => pure ((slot, false), s)
  | none => do
    let slot ← make
    pure ((slot, true), s.insert key slot)

def clear (s : Store hash α) : Store hash α :=
  { mask := s.mask, shards := s.shards.map fun _ => ∅, size_shards := by simp [s.size_shards] }

def size (s : Store hash α) : Nat := s.shards.foldl (fun n shard => n + shard.size) 0

def isEmpty (s : Store hash α) : Bool := s.shards.all (·.isEmpty)

def toList (s : Store hash α) : List (String × α) := s.shards.toList.flatMap (·.toList)

def keys (s : Store hash α) : List String :=
  (s.toList.map (·.1)).mergeSort (fun a b => a < b || a == b)

end Store

end TimedCache
