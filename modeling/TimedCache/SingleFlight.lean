import TimedCache.Failure

/-!
Loads that share their result. The first caller for a key leads: it runs the load and publishes
what came of it. Callers that arrive while the load is in flight follow: they run nothing and wait
for the leader. A call keeps its result after it has left the table, so a follower that looks late
sees the result of its own leader and of no other.
-/

namespace TimedCache

/-- Identifies one load among all that were ever started. -/
abbrev CallId := Nat

inductive Progress (V : Type) where
  | running
  | published (result : Except CacheError V)
  /-- The leader left without publishing. -/
  | abandoned

inductive Seat where
  | leader (call : CallId)
  | follower (call : CallId)
  deriving DecidableEq, Repr

structure SingleFlight (V : Type) where
  /-- Every load ever started. -/
  calls : Array (Progress V) := #[]
  /-- The running load of each key that has one. -/
  inFlight : List (String × CallId) := []

namespace SingleFlight

variable {V : Type}

/-- Seats a caller: a follower of the load in flight, or else the leader of a new one. -/
def enter (f : SingleFlight V) (key : String) : Seat × SingleFlight V :=
  match f.inFlight.lookup key with
  | some call => (.follower call, f)
  | none =>
    (.leader f.calls.size,
      { calls := f.calls.push .running, inFlight := (key, f.calls.size) :: f.inFlight })

/-- Ends the load of a leader, which takes its key out of the table. -/
def settle (f : SingleFlight V) (key : String) (call : CallId) (p : Progress V) :
    SingleFlight V :=
  { calls := f.calls.modify call fun _ => p
    inFlight := f.inFlight.filter fun entry => entry.1 != key }

def publish (f : SingleFlight V) (key : String) (call : CallId)
    (result : Except CacheError V) : SingleFlight V :=
  f.settle key call (.published result)

def abandon (f : SingleFlight V) (key : String) (call : CallId) : SingleFlight V :=
  f.settle key call .abandoned

def progress (f : SingleFlight V) (call : CallId) : Progress V :=
  (f.calls[call]?).getD .abandoned

/-- What a follower of a load finally receives, once there is something to receive. -/
def outcome? (f : SingleFlight V) (key : String) (call : CallId) : Option (Except CacheError V) :=
  match f.progress call with
  | .running => none
  | .published result => some result
  | .abandoned => some (.error (.loadAbandoned key))

def size (f : SingleFlight V) : Nat := f.inFlight.length

end SingleFlight

end TimedCache
