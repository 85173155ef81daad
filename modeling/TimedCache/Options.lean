import Std.Data.HashMap
import TimedCache.Failure
import TimedCache.Store
import TimedCache.Time.Span

/-!
How a cache is set up, with the defaults.
-/

namespace TimedCache

abbrev Loader (V : Type) := String → Except LoaderFault V

/-- Finds the values of many keys at once; keys may be missing from the answer, or extra. -/
abbrev BatchLoader (V : Type) := List String → Except LoaderFault (Std.HashMap String V)

/-- A callback for entries that leave the cache. It fails for some keys, and a failing callback
takes the worker down with it. -/
structure Hook where
  fails : String → Bool := fun _ => false

structure Options (V : Type) where
  /-- The most entries kept; zero means any number. -/
  capacity : Nat := 1000
  /-- Time to live of values set without one; zero means for ever. -/
  defaultTtl : Span := .zero
  /-- How long a stale value is still shown after its time to live. -/
  expireDelay : Span := .zero
  loader : Option (Loader V) := none
  batchLoader : Option (BatchLoader V) := none
  /-- How long a set waits for the worker; absent when it does not wait. -/
  syncSetTimeout : Option Span := none
  /-- Whether a delete waits for the worker. -/
  syncDelete : Bool := false
  onDelete : Option Hook := none
  onExpire : Option Hook := none
  tick : Span := .ofSeconds 1
  slots : Nat := 60
  shards : Nat := Store.defaultShards
  /-- Read notes that make a batch. -/
  readBatch : Nat := 16

namespace Options

variable {V : Type}

/-- Makes sets wait for the worker, up to a timeout; a zero timeout is none at all. -/
def waitingSets (o : Options V) (timeout : Option Span) : Options V :=
  { o with syncSetTimeout := timeout.filter fun t => !t.isZero }

def deleteTimeout (o : Options V) : Span := o.syncSetTimeout.getD (.ofSeconds 1)

def text (o : Options V) : String :=
  let timeout := match o.syncSetTimeout with
    | none => "None"
    | some t => "Some(" ++ t.text ++ ")"
  let fields := [
    ("capacity", toString o.capacity),
    ("default_ttl", o.defaultTtl.text),
    ("expire_delay", o.expireDelay.text),
    ("loader", toString o.loader.isSome),
    ("batch_loader", toString o.batchLoader.isSome),
    ("sync_set_timeout", timeout),
    ("sync_delete", toString o.syncDelete),
    ("timer_tick", o.tick.text),
    ("timer_slots", toString o.slots)]
  "CacheBuilder \x7b " ++ ", ".intercalate (fields.map fun (name, value) => name ++ ": " ++ value)
    ++ " \x7d"

end Options

end TimedCache
