import TimedCache.Saturation

/-!
Lengths of time with the precision of a nanosecond. A span has at most `maxWord` whole seconds;
sums stop at the longest span. Timers and stamps look at spans through their whole milliseconds.
-/

namespace TimedCache

/-- A length of time, in nanoseconds. -/
structure Span where
  nanos : Nat
  deriving DecidableEq, Repr

namespace Span

def zero : Span := ⟨0⟩

/-- The longest span: every second a word counts, and all but one nanosecond of another. -/
def longest : Span := ⟨maxWord * 1000000000 + 999999999⟩

def ofParts (seconds nanos : Nat) : Span := ⟨seconds * 1000000000 + nanos⟩

/-- As `ofParts`, unless the span would be longer than the longest. -/
def compose (seconds nanos : Nat) : Except Overflow Span :=
  if (ofParts seconds nanos).nanos ≤ longest.nanos then .ok (ofParts seconds nanos)
  else .error .spanLength

def ofSeconds (s : Nat) : Span := ofParts s 0

def ofMillis (ms : Nat) : Span := ⟨ms * 1000000⟩

def seconds (d : Span) : Nat := d.nanos / 1000000000

/-- The nanoseconds beyond the last whole second. -/
def subsecond (d : Span) : Nat := d.nanos % 1000000000

/-- Whole milliseconds, however many. -/
def wholeMillis (d : Span) : Nat := d.nanos / 1000000

def millis (d : Span) : Nat := clampWord d.wholeMillis

def isZero (d : Span) : Bool := d.nanos == 0

def add (a b : Span) : Span := ⟨min (a.nanos + b.nanos) longest.nanos⟩

instance : Max Span := ⟨fun a b => if a.nanos ≤ b.nanos then b else a⟩

theorem wholeMillis_ofMillis (ms : Nat) : (ofMillis ms).wholeMillis = ms := by
  simp [ofMillis, wholeMillis]

theorem millis_ofMillis {ms : Nat} (h : ms ≤ maxWord) : (ofMillis ms).millis = ms := by
  rw [millis, wholeMillis_ofMillis, clampWord_of_le h]

/-! ## Text -/

/-- The digits of `part` after the point, as one of `10 ^ width`, without trailing zeros. -/
def fractionDigits (width part : Nat) : List Char :=
  let digits := Nat.toDigits 10 part
  let padded := List.replicate (width - digits.length) '0' ++ digits
  (padded.reverse.dropWhile (· == '0')).reverse

/-- A whole number and a fraction of it in `width` decimal places, written as short as exact. -/
def decimal (whole width part : Nat) : String :=
  match fractionDigits width part with
  | [] => toString whole
  | digits => toString whole ++ "." ++ String.ofList digits

/-- A span in the largest of the units s, ms, µs and ns of which it has at least one. -/
def text (d : Span) : String :=
  if 1000000000 ≤ d.nanos then
    decimal (d.nanos / 1000000000) 9 (d.nanos % 1000000000) ++ "s"
  else if 1000000 ≤ d.nanos then
    decimal (d.nanos / 1000000) 6 (d.nanos % 1000000) ++ "ms"
  else if 1000 ≤ d.nanos then
    decimal (d.nanos / 1000) 3 (d.nanos % 1000) ++ "µs"
  else
    toString d.nanos ++ "ns"

end Span

end TimedCache
