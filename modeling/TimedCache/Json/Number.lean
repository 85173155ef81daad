import TimedCache.Json.Scan
import TimedCache.Saturation

/-!
Reading JSON numbers. A number is a word if it is written as digits alone and fits one. Any other
number is read as a double, which fails if it is too large for one. The digits that fit a word
are its significand, and the others only move the point, so the double is the product of a rounded
significand and a rounded power of ten.
-/

namespace TimedCache.Json

/-- A scanned number: its value if it is a word, else nothing more than that it is a number. -/
abbrev Numeral := Option Nat

def digitValue (c : Char) : Nat := c.toNat - '0'.toNat

/-! ## Size of a double -/

/-- The number rounded to 53 significant bits, a half to the even neighbour. -/
def roundToDouble (n : Nat) : Nat :=
  let shift := n.log2 - 52
  let unit := Nat.pow 2 shift
  let quotient := n / unit
  let rest := n % unit
  if 2 * rest < unit ∨ (2 * rest = unit ∧ quotient % 2 = 0) then quotient * unit
  else (quotient + 1) * unit

def beyondDoubles : Nat := Nat.pow 2 1024 - Nat.pow 2 970

def tooLarge (significand : Nat) (exponent : Int) : Bool :=
  if significand = 0 || exponent < 0 then false
  else if 308 < exponent then true
  else
    decide (beyondDoubles ≤
      roundToDouble significand * roundToDouble (Nat.pow 10 exponent.toNat))

/-- A number that is no word, read as a double. -/
def asDouble (significand : Nat) (exponent : Int) (rest : List Char) :
    Except Fault (Numeral × List Char) :=
  if tooLarge significand exponent then .error .malformed else .ok (none, rest)

/-! ## Parts of a number -/

def scanExponentDigits (significand : Nat) (exponent : Int) (negative : Bool) :
    List Char → Except Fault (Numeral × List Char)
  | [] => .error .truncated
  | c :: cs =>
    if c.isDigit then
      let digits := (c :: cs).takeWhile (·.isDigit)
      let shift : Int := digits.foldl (fun n d => 10 * n + digitValue d) 0
      let exponent := if negative then exponent - shift else exponent + shift
      asDouble significand exponent ((c :: cs).dropWhile (·.isDigit))
    else
      .error .malformed

def scanExponent (significand : Nat) (exponent : Int) :
    List Char → Except Fault (Numeral × List Char)
  | '+' :: cs => scanExponentDigits significand exponent false cs
  | '-' :: cs => scanExponentDigits significand exponent true cs
  | cs => scanExponentDigits significand exponent false cs

def scanAfterFraction (significand : Nat) (exponent : Int) :
    List Char → Except Fault (Numeral × List Char)
  | 'e' :: cs => scanExponent significand exponent cs
  | 'E' :: cs => scanExponent significand exponent cs
  | cs => asDouble significand exponent cs

def addFraction (significand : Nat) (exponent : Int) : List Char → Nat × Int
  | [] => (significand, exponent)
  | d :: digits =>
    let next := 10 * significand + digitValue d
    if next ≤ maxWord then addFraction next (exponent - 1) digits else (significand, exponent)

/-- Reads a fraction after its point; at least one digit has to come. -/
def scanFraction (significand : Nat) (exponent : Int) :
    List Char → Except Fault (Numeral × List Char)
  | [] => .error .truncated
  | c :: cs =>
    if c.isDigit then
      let digits := (c :: cs).takeWhile (·.isDigit)
      let (significand, exponent) := addFraction significand exponent digits
      scanAfterFraction significand exponent ((c :: cs).dropWhile (·.isDigit))
    else
      .error .malformed

/-- Adds the digits before the point to a significand while it stays a word; the digits left over
raise the exponent. -/
def addInteger (significand : Nat) : List Char → Nat × Nat
  | [] => (significand, 0)
  | d :: digits =>
    let next := 10 * significand + digitValue d
    if next ≤ maxWord then addInteger next digits else (significand, digits.length + 1)

/-- Reads a number after its sign. Digits alone are a word if they fit one and have no sign. -/
def scanUnsigned (negative : Bool) : Scan Numeral
  | [] => .error .truncated
  | c :: cs =>
    let digits := (c :: cs).takeWhile (·.isDigit)
    let rest := (c :: cs).dropWhile (·.isDigit)
    if !c.isDigit || (c == '0' && 1 < digits.length) then .error .malformed
    else
      let (significand, dropped) := addInteger 0 digits
      match rest with
      | '.' :: rest => scanFraction significand dropped rest
      | 'e' :: rest => scanExponent significand dropped rest
      | 'E' :: rest => scanExponent significand dropped rest
      | rest =>
        if dropped = 0 then .ok (if negative then none else some significand, rest)
        else asDouble significand dropped rest

def scanNumber : Scan Numeral
  | '-' :: cs => scanUnsigned true cs
  | cs => scanUnsigned false cs

/-! ## Skipping -/

def skipExponent (cs : List Char) : Except Fault (Unit × List Char) :=
  let digits := match cs with
    | '+' :: cs => cs
    | '-' :: cs => cs
    | cs => cs
  match digits with
  | d :: rest => if d.isDigit then .ok ((), rest.dropWhile (·.isDigit)) else .error .malformed
  | [] => .error .malformed

def skipAfterDigits : Scan Unit
  | 'e' :: cs => skipExponent cs
  | 'E' :: cs => skipExponent cs
  | cs => .ok ((), cs)

/-- Skips a number, however large. One that breaks off is malformed. -/
def skipNumber (cs : List Char) : Except Fault (Unit × List Char) :=
  let cs := match cs with
    | '-' :: cs => cs
    | cs => cs
  let digits := cs.takeWhile (·.isDigit)
  if digits.isEmpty || (digits.head? == some '0' && 1 < digits.length) then .error .malformed
  else
    match cs.dropWhile (·.isDigit) with
    | '.' :: rest =>
      if (rest.head?.map (·.isDigit)).getD false then
        skipAfterDigits (rest.dropWhile (·.isDigit))
      else
        .error .malformed
    | rest => skipAfterDigits rest

end TimedCache.Json
