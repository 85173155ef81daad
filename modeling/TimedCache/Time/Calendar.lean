import TimedCache.Time.Clock

/-!
Moments of the calendar, by which answers are dated. The calendar runs from the epoch to the end of
the year 262142; a dated answer can only be made in that time.
-/

namespace TimedCache

structure Moment where
  millisSinceEpoch : Nat
  deriving DecidableEq, Repr

namespace Moment

/-- The start of the year 262143, in milliseconds since the epoch. -/
def calendarEnd : Nat := 8210266876800000

/-- The start of the year 10000, in milliseconds since the epoch. -/
def fourDigitEnd : Nat := 253402300800000

def ofClock (c : Clock) : Except Overflow Moment :=
  if 0 ≤ c.unix ∧ c.unix.toNat < calendarEnd then .ok ⟨c.unix.toNat⟩ else .error .calendar

def isStandard (m : Moment) : Bool := decide (m.millisSinceEpoch < fourDigitEnd)

end Moment

end TimedCache
