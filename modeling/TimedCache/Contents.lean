import TimedCache.Entry
import TimedCache.Hash.XxHash
import TimedCache.Store

/-!
The entries of a cache. Every entry ever made keeps its serial, the place it was made at, so a
replacement under the same key is told apart from what it replaced. The slots say which entry a
reader finds under a key.
-/

namespace TimedCache

/-- Identifies an entry among all that were ever made; later entries have greater serials. -/
abbrev Serial := Nat

/-- All entries by serial, and the serial in each occupied slot. -/
structure Contents (V : Type) where
  entries : Array (Entry V)
  slots : Store XxHash.keyHash Serial

namespace Contents

variable {V : Type}

def withShards (n : Nat) : Except Overflow (Contents V) :=
  (Store.withShards n).map fun slots => { entries := #[], slots }

def entry? (c : Contents V) (s : Serial) : Option (Entry V) := c.entries[s]?

def create (c : Contents V) (key : String) (value : V) (expireAt : Option Nat) :
    Serial × Contents V :=
  (c.entries.size, { c with entries := c.entries.push { key, value, expireAt } })

def modify (c : Contents V) (s : Serial) (change : Entry V → Entry V) : Contents V :=
  { c with entries := c.entries.modify s change }

/-- The entry that a reader of the key finds, if any. -/
def occupant? (c : Contents V) (key : String) : Option Serial := c.slots.get? key

def occupantEntry? (c : Contents V) (key : String) : Option (Entry V) :=
  (c.occupant? key).bind c.entry?

/-- Whether the slot of the entry's key holds that very entry. -/
def occupies (c : Contents V) (s : Serial) : Bool :=
  match c.entry? s with
  | some e => c.occupant? e.key == some s
  | none => false

def place (c : Contents V) (s : Serial) : Contents V :=
  match c.entry? s with
  | some e => { c with slots := c.slots.insert e.key s }
  | none => c

/-- Empties the slot of the entry's key if it holds that very entry; tells whether it did. -/
def vacate (c : Contents V) (s : Serial) : Bool × Contents V :=
  match c.entry? s with
  | some e =>
    let (taken, slots) := c.slots.takeIf e.key (· == s)
    (taken.isSome, { c with slots })
  | none => (false, c)

/-- Empties the slot of a key, whoever holds it. -/
def takeKey (c : Contents V) (key : String) : Option Serial × Contents V :=
  let (taken, slots) := c.slots.take key
  (taken, { c with slots })

def clearSlots (c : Contents V) : Contents V := { c with slots := c.slots.clear }

def handle? (c : Contents V) (s : Serial) : Option Handle := (c.entry? s).bind (·.handle?)

def link (c : Contents V) (s : Serial) (h : Handle) : Contents V := c.modify s (·.link h)

def unlink (c : Contents V) (s : Serial) : Contents V := c.modify s (·.unlink)

def size (c : Contents V) : Nat := c.slots.size

end Contents

end TimedCache
