import TimedCache.Proofs.Cache.Charges

/-!
How many entries have a slot. An entry takes a slot when it is inserted, and keeps it until it is
evicted, expires, is taken by a caller who deletes it or is dropped with all others. So the slots
are what was inserted less what left, whichever of them the worker or a caller emptied.
-/

namespace TimedCache

namespace Cache

variable {V : Type} {c : Cache V}

end Cache

namespace System

variable {V : Type} {s : System V}

/-- The number of entries that are dropped as the worker comes to a clearing. -/
def dropped? (s : System V) : Move V → Option Nat
  | .workWrite => if s.cache.writes.items.head? = some .clear then some s.cache.size else none
  | _ => none

/-- The number of entries that lose their slots with a move. -/
def lost (s : System V) (move : Move V) : Nat :=
  (s.evicted? move).toList.length + (s.expired? move).toList.length +
    (s.taken? move).toList.length + (s.dropped? move).toList.sum

end System

end TimedCache
