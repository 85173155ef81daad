import TimedCache.Contents
import TimedCache.Time.Clock
import TimedCache.Timer

/-!
At most one pending timer for each key. A timer remembers the entry it was set for, so the late
removal of a replaced entry leaves its successor's timer alone. A timer that has fired stays on
record until it is acknowledged; an acknowledgement counts only while that very timer is the one
on record.
-/

namespace TimedCache

structure Alarm where
  id : TimerId
  owner : Serial
  deriving DecidableEq, Repr

/-- The keys' timers; a task of the wheel carries its key. -/
structure Expiry where
  timer : Timer String
  alarms : Std.HashMap String Alarm := ∅

namespace Expiry

def start (tick : Span) (slots : Nat) : Expiry := { timer := .start tick slots }

def allocate (tick : Span) (slots : Nat) : Except Overflow Expiry :=
  if Wheel.fits slots then .ok (start tick slots) else .error .tableSize

def contains (q : Expiry) (key : String) : Bool := q.alarms.contains key

def size (q : Expiry) : Nat := q.alarms.size

/-- Cancels and forgets the timer of a key; the flag tells whether there was one. -/
def remove (q : Expiry) (key : String) : Bool × Expiry :=
  match q.alarms[key]? with
  | some alarm =>
    let { timer, alarms } := q
    (true, { timer := (timer.cancel alarm.id).2, alarms := alarms.erase key })
  | none => (false, q)

def removeOwned (q : Expiry) (key : String) (owner : Serial) : Bool × Expiry :=
  match q.alarms[key]? with
  | some alarm => if alarm.owner = owner then q.remove key else (false, q)
  | none => (false, q)

/-- Whether time has run out, so that no timer can be set any more. -/
def atLastTick (q : Expiry) : Bool := q.timer.atLastTick

/-- Sets the timer of a key for a moment of the calendar clock, in place of any other, while there
is a next tick. -/
def replace (q : Expiry) (clock : Clock) (key : String) (owner : Serial) (fireAt : Nat) :
    TimerId × Expiry :=
  let after := Span.ofMillis (fireAt - clock.timestamp)
  let { timer, alarms } := (q.remove key).2
  let (id, timer) := timer.add clock.elapsed after key
  (id, { timer, alarms := alarms.insert key { id, owner } })

def set (q : Expiry) (clock : Clock) (key : String) (owner : Serial) (fireAt : Nat) :
    Except Overflow (TimerId × Expiry) :=
  if q.atLastTick then .error .lastTick else .ok (q.replace clock key owner fireAt)

/-- Acknowledges a fired timer: forgets it and tells whose it was. A timer that was replaced or
removed since it fired is not on record. -/
def acknowledge (q : Expiry) (key : String) (id : TimerId) : Option Serial × Expiry :=
  match q.alarms[key]? with
  | some alarm =>
    if alarm.id = id then (some alarm.owner, { q with alarms := q.alarms.erase key })
    else (none, q)
  | none => (none, q)

def wake (q : Expiry) (clock : Clock) : List (TimerId × String) × Expiry :=
  let (fired, timer) := q.timer.wake clock.elapsed fun _ => false
  (fired, { q with timer })

def clear (q : Expiry) : Expiry := { timer := q.timer.clear, alarms := ∅ }

def stop (q : Expiry) : Expiry := { timer := q.timer.stop, alarms := ∅ }

end Expiry

end TimedCache
