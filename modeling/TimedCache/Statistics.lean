import TimedCache.Saturation

/-!
What a cache counts. The counters grow with use; a snapshot of them, together with what the other
parts count, gives the hit rate.
-/

namespace TimedCache

/-- The counters that callers and the worker keep. -/
structure Counters where
  /-- Lookups that found a live value. -/
  hits : Nat := 0
  /-- Lookups that found nothing, or a stale value. -/
  misses : Nat := 0
  /-- Entries that gave way to others. -/
  evictions : Nat := 0
  /-- Entries removed after their time to live and the grace delay. -/
  expirations : Nat := 0
  /-- Writes that the write queue refused. -/
  rejectedWrites : Nat := 0
  deriving DecidableEq, Repr

namespace Counters

def hit (c : Counters) : Counters := { c with hits := c.hits + 1 }

def miss (c : Counters) : Counters := { c with misses := c.misses + 1 }

def eviction (c : Counters) : Counters := { c with evictions := c.evictions + 1 }

def expiration (c : Counters) : Counters := { c with expirations := c.expirations + 1 }

def rejectedWrite (c : Counters) : Counters := { c with rejectedWrites := c.rejectedWrites + 1 }

end Counters

/-- The counters of a cache at one moment. -/
structure Statistics where
  hits : Nat
  misses : Nat
  evictions : Nat
  expirations : Nat
  /-- Batches of read notes dropped under load. -/
  droppedReads : Nat
  rejectedWrites : Nat
  totalEntries : Nat
  deriving DecidableEq, Repr

namespace Statistics

def ofCounters (c : Counters) (droppedReads totalEntries : Nat) : Statistics :=
  { hits := c.hits, misses := c.misses, evictions := c.evictions, expirations := c.expirations
    droppedReads, rejectedWrites := c.rejectedWrites, totalEntries }

/-- The number of lookups, unless no word holds it. -/
def lookups (s : Statistics) : Except Overflow Nat :=
  if s.hits + s.misses ≤ maxWord then .ok (s.hits + s.misses) else .error .lookupCount

/-- The share of hits among the lookups, as the quotient of the two nearest doubles; zero before
the first lookup. -/
def hitRate (s : Statistics) : Except Overflow Float :=
  s.lookups.map fun total =>
    if total = 0 then 0.0 else (UInt64.ofNat s.hits).toFloat / (UInt64.ofNat total).toFloat

end Statistics

end TimedCache
