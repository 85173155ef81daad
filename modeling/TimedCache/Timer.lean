import TimedCache.Time.Span
import TimedCache.Wheel

/-!
A wheel driven by elapsed time. The driver wakes now and then, moves the wheel to the last whole
tick and fires what is due. A deadline is rounded up to a tick and a wake-up down to one, both from
whole milliseconds, so nothing fires before the millisecond of its time. The driver ends when it is
stopped or when firing a task brings it down; tasks can still be added and cancelled then, but
nothing fires any more.
-/

namespace TimedCache

structure Timer (α : Type) where
  wheel : Wheel α
  tick : Span
  /-- Whether the driver still wakes. -/
  driven : Bool := true

namespace Timer

variable {α : Type}

/-- A timer with no tasks, driven in ticks of at least a millisecond. -/
def start (tick : Span) (slots : Nat) : Timer α :=
  { wheel := .withSlots slots, tick := max tick (.ofMillis 1) }

def allocate (tick : Span) (slots : Nat) : Except Overflow (Timer α) :=
  if Wheel.fits slots then .ok (start tick slots) else .error .tableSize

/-- The tick at which a task for `after` from now is due, rounded up. -/
def deadline (t : Timer α) (elapsed after : Span) : Nat :=
  let due := (elapsed.add after).wholeMillis
  let step := t.tick.wholeMillis
  clampWord ((due + step - 1) / step)

/-- Whether time has run out, so that no task can be added any more. -/
def atLastTick (t : Timer α) : Bool := t.wheel.atLastTick

/-- Adds a task for `after` from now while there is a next tick. -/
def add (t : Timer α) (elapsed after : Span) (payload : α) : TimerId × Timer α :=
  let due := t.deadline elapsed after
  let { wheel, tick, driven } := t
  let (id, wheel) := wheel.add due payload
  (id, { wheel, tick, driven })

def schedule (t : Timer α) (elapsed after : Span) (payload : α) :
    Except Overflow (TimerId × Timer α) :=
  if t.atLastTick then .error .lastTick else .ok (t.add elapsed after payload)

def cancel (t : Timer α) (id : TimerId) : Bool × Timer α :=
  let (pending, wheel) := t.wheel.cancel id
  (pending, { t with wheel })

/-- The list up to and including the first element that passes the test. -/
def upTo (test : α → Bool) : List (TimerId × α) → List (TimerId × α)
  | [] => []
  | a :: rest => if test a.2 then [a] else a :: upTo test rest

/-- Wakes the driver: moves the wheel to the last whole tick and fires what is due, in order. The
first task that is fatal to the driver is the last that fires. -/
def wake (t : Timer α) (elapsed : Span) (fatal : α → Bool) : List (TimerId × α) × Timer α :=
  let target := elapsed.millis / t.tick.millis
  if t.driven && decide (t.wheel.current < target) then
    let (due, wheel) := t.wheel.advanceTo target
    (upTo fatal due, { t with wheel, driven := !due.any fun task => fatal task.2 })
  else
    ([], t)

def clear (t : Timer α) : Timer α := { t with wheel := t.wheel.clear }

def stop (t : Timer α) : Timer α := { t.clear with driven := false }

def pending (t : Timer α) : Nat := t.wheel.pending

def levels (t : Timer α) : Nat := t.wheel.levels.size

end Timer

end TimedCache
