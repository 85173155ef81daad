import TimedCache.SingleFlight

/-!
Named callers of shared loads, moved one step at a time: a caller starts, its load is given an
outcome, it looks for its result, or it is cancelled.
-/

namespace TimedCache

structure Caller where
  key : String
  seat : Seat
  deriving DecidableEq, Repr

inductive Look (V : Type) where
  | done (result : Except CacheError V)
  | pending
  /-- The caller has finished, was cancelled or never started. -/
  | gone

structure Callers (V : Type) where
  flight : SingleFlight V := {}
  unfinished : List (String × Caller) := []

namespace Callers

variable {V : Type}

def find? (c : Callers V) (name : String) : Option Caller := c.unfinished.lookup name

def forget (c : Callers V) (name : String) : Callers V :=
  { c with unfinished := c.unfinished.filter fun entry => entry.1 != name }

/-- Takes a caller's part in a load back. The load of a leader is abandoned. -/
def leave (c : Callers V) (caller : Caller) : Callers V :=
  match caller.seat with
  | .leader call => { c with flight := c.flight.abandon caller.key call }
  | .follower _ => c

/-- Cancels a caller; the flag tells whether it was unfinished. -/
def cancel (c : Callers V) (name : String) : Bool × Callers V :=
  match c.find? name with
  | some caller => (true, (c.forget name).leave caller)
  | none => (false, c)

/-- Starts a caller; the flag tells whether it leads. An unfinished caller of the same name is
cancelled first. -/
def start (c : Callers V) (name key : String) : Bool × Callers V :=
  let c := (c.cancel name).2
  let (seat, flight) := c.flight.enter key
  (seat matches .leader _, { flight, unfinished := (name, { key, seat }) :: c.unfinished })

def look (c : Callers V) (name : String) : Look V × Callers V :=
  match c.find? name with
  | none => (.gone, c)
  | some { seat := .leader _, .. } => (.pending, c)
  | some { key, seat := .follower call } =>
    match c.flight.outcome? key call with
    | none => (.pending, c)
    | some result => (.done result, c.forget name)

/-- Gives the load of a leader its outcome, which the leader publishes and returns. A follower has
no load of its own and merely looks. -/
def finish (c : Callers V) (name : String) (result : Except CacheError V) :
    Look V × Callers V :=
  match c.find? name with
  | some { key, seat := .leader call } =>
    (.done result,
      { c.forget name with flight := c.flight.publish key call result })
  | _ => c.look name

end Callers

end TimedCache
