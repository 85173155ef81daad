import TimedCache.Handle
import TimedCache.Time.Span

/-!
One cached record. Its value and stamp are overwritten in place by writers; its node word says where
the recency list keeps it. How a reader sees an entry depends on the stamp alone: alive up to the
stamp, stale from there on while the grace delay runs, and gone after that.
-/

namespace TimedCache

/-- How a key presents itself at a moment. -/
inductive Status where
  /-- Nothing to show. -/
  | notExist
  /-- A value within its time to live. -/
  | exist
  /-- A stale value within the grace delay. -/
  | expired
  deriving DecidableEq, Repr

def Status.label : Status → String
  | .notExist => "not_exist"
  | .exist => "exist"
  | .expired => "expired"

/-- A record under its key; `expireAt` is absent when it never expires. -/
structure Entry (V : Type) where
  key : String
  value : V
  expireAt : Option Nat
  node : UInt64 := Handle.unlinked

namespace Entry

variable {V : Type}

/-- Replaces the value and the stamp; the place in the recency list stays. -/
def overwrite (e : Entry V) (value : V) (expireAt : Option Nat) : Entry V :=
  { e with value, expireAt }

/-- The moment from which the entry must go: its stamp plus the grace delay. -/
def evictAt (e : Entry V) (delay : Span) : Option Nat :=
  e.expireAt.map fun stamp => satAdd stamp delay.millis

def statusAt (e : Entry V) (now : Nat) (delay : Span) : Status :=
  match e.expireAt with
  | none => .exist
  | some stamp =>
    if now < stamp then .exist
    else if now < satAdd stamp delay.millis then .expired
    else .notExist

def handle? (e : Entry V) : Option Handle := Handle.ofWord? e.node

def link (e : Entry V) (h : Handle) : Entry V := { e with node := h.toWord }

def unlink (e : Entry V) : Entry V := { e with node := Handle.unlinked }

end Entry

end TimedCache
