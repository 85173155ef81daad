import TimedCache.Time.Span

/-!
The two clocks of a cache. The calendar clock dates expiry stamps and may stand
before its epoch; the steady clock counts from the start of the cache and drives the timers.
-/

namespace TimedCache

/-- Milliseconds since the epoch and since the start. -/
structure Clock where
  unix : Int
  sinceStart : Nat := 0
  deriving DecidableEq, Repr

namespace Clock

def lapse (c : Clock) (ms steady : Nat) : Clock :=
  { unix := c.unix + ms, sinceStart := c.sinceStart + steady }

def advance (c : Clock) (ms : Nat) : Clock := c.lapse ms ms

/-- The time of day as a word: the epoch stands for all that came before it. -/
def timestamp (c : Clock) : Nat := clampWord c.unix.toNat

def elapsed (c : Clock) : Span := .ofMillis c.sinceStart

/-- When something that lives for `ttl` from now on expires; a zero span means never. -/
def stampAfter (c : Clock) (ttl : Span) : Option Nat :=
  if ttl.isZero then none else some (satAdd c.timestamp ttl.millis)

/-- The seconds since the start in which the steady clock can name moments. -/
def steadySeconds : Nat := 9223372036854775808

def canAwait (c : Clock) (d : Span) : Bool :=
  decide (c.elapsed.nanos + d.nanos < (Span.ofSeconds steadySeconds).nanos)

theorem timestamp_le (c : Clock) : c.timestamp ≤ maxWord := clampWord_le _

theorem timestamp_mono (c : Clock) (ms steady : Nat) :
    c.timestamp ≤ (c.lapse ms steady).timestamp := by
  unfold timestamp lapse clampWord
  dsimp only
  omega

end Clock

end TimedCache
