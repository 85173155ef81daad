import TimedCache.Expiry
import TimedCache.Options
import TimedCache.ReadTracker
import TimedCache.Recency
import TimedCache.SingleFlight
import TimedCache.Statistics

/-!
The state of a cache. Callers and the worker share the contents; the recency list and the timers
belong to the worker alone. What callers change is visible to readers at once, and the
consequences wait for the worker in three queues: write operations, batches of read notes, and
fired timers. The log keeps every callback and every call of a loader in order.
-/

namespace TimedCache

/-- A change whose consequences the worker still has to draw. -/
inductive WriteOp where
  /-- An entry was inserted. -/
  | set (entry : Serial)
  /-- An entry was overwritten in place. -/
  | update (entry : Serial)
  /-- An entry lost its slot to an explicit delete. -/
  | delete (entry : Serial)
  | clear
  /-- Changes nothing; a caller waits until the worker has come this far. -/
  | flush
  deriving DecidableEq, Repr

inductive Departure where
  | deleted
  | evicted
  | expired
  deriving DecidableEq, Repr

inductive Event (V : Type) where
  /-- A callback was run for an entry that left. -/
  | left (reason : Departure) (entry : Serial) (key : String) (value : V)
  /-- A loader was called. -/
  | loading (key : String)
  /-- A batch loader was called. -/
  | loadingAll (keys : List String)
  deriving DecidableEq, Repr

/-- The most write operations queued for callers that do not wait. -/
def writeQueueCapacity : Nat := 4096

/-- The most batches of read notes queued. -/
def readQueueCapacity : Nat := 64

structure Cache (V : Type) where
  options : Options V
  clock : Clock
  contents : Contents V
  counters : Counters := {}
  reads : ReadTracker
  /-- Closed once the worker has stopped. -/
  writes : Queue WriteOp := { capacity := writeQueueCapacity }
  /-- Timers that have fired and wait for the worker, each with its key. -/
  fired : List (TimerId × String) := []
  recency : Recency
  expiry : Expiry
  loads : SingleFlight V := {}
  /-- Whether the worker rests, so that no caller's wait is rewarded. -/
  paused : Bool := false
  /-- The messages that the worker gets through before a caller's wait runs out; without a number it
  gets through them all. This stands for how long a caller waits and for how long callbacks hold the
  worker up. -/
  stint : Option Nat := none
  log : Array (Event V) := #[]

namespace Cache

variable {V : Type}

/-- An empty cache whose worker is ready. All readers share one stripe of read notes. -/
def create (options : Options V) (clock : Clock) : Except Overflow (Cache V) :=
  (Contents.withShards options.shards).map fun contents =>
    { options, clock, contents
      reads := .create 1 options.readBatch readQueueCapacity
      recency := .withCapacity options.capacity
      expiry := .start options.tick options.slots }

def allocate (options : Options V) (clock : Clock) : Except Overflow (Cache V) :=
  if Store.fits options.shards && Wheel.fits options.slots
      && ReadTracker.fits 1 options.readBatch readQueueCapacity then
    create options clock
  else
    .error .tableSize

def isClosed (c : Cache V) : Bool := c.writes.closed

def size (c : Cache V) : Nat := c.contents.size

def isEmpty (c : Cache V) : Bool := c.contents.slots.isEmpty

def statistics (c : Cache V) : Statistics := .ofCounters c.counters c.reads.dropped c.size

def record (c : Cache V) (e : Event V) : Cache V := { c with log := c.log.push e }

/-- Stops the worker for good: what is queued is lost, and no timer fires any more. -/
def halt (c : Cache V) : Cache V :=
  { c with
    writes := c.writes.close, reads := c.reads.close, fired := []
    expiry := c.expiry.stop, paused := false }

end Cache

end TimedCache
