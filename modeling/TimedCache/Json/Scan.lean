/-!
Reading JSON text, one piece at a time, from the list of its characters. What is wrong with a text
is decided by the first fault in reading order. Text of strings is either read, and then has to be
well-formed down to its surrogate pairs, or skipped, and then only its end has to be found; the
same goes for numbers, of which only a number that is read has to fit a double.
-/

namespace TimedCache.Json

inductive Fault where
  /-- It breaks the grammar. -/
  | malformed
  /-- It ends too early. -/
  | truncated
  /-- It is something other than what was wanted. -/
  | mismatched
  deriving DecidableEq, Repr

/-- A reader takes a piece of text off the front and leaves the rest. -/
abbrev Scan (α : Type) := List Char → Except Fault (α × List Char)

def isBlank (c : Char) : Bool := c == ' ' || c == '\n' || c == '\t' || c == '\r'

def skipBlanks (cs : List Char) : List Char := cs.dropWhile isBlank

def scanWord : List Char → Scan Unit
  | [], cs => .ok ((), cs)
  | _ :: _, [] => .error .truncated
  | w :: word, c :: cs => if w = c then scanWord word cs else .error .malformed

/-! ## Strings -/

def hexDigit? (c : Char) : Option Nat :=
  if c.isDigit then some (c.toNat - '0'.toNat)
  else if 'a' ≤ c ∧ c ≤ 'f' then some (c.toNat - 'a'.toNat + 10)
  else if 'A' ≤ c ∧ c ≤ 'F' then some (c.toNat - 'A'.toNat + 10)
  else none

def codeUnit? (a b c d : Char) : Option Nat := do
  let a ← hexDigit? a
  let b ← hexDigit? b
  let c ← hexDigit? c
  let d ← hexDigit? d
  return ((a * 16 + b) * 16 + c) * 16 + d

/-- What is wrong where four digits should follow: the text ends, if it has no four bytes left. -/
def digitsFault (cs : List Char) : Fault :=
  if (String.ofList cs).utf8ByteSize < 4 then .truncated else .malformed

/-- What a single letter after a backslash stands for. -/
def escaped? : Char → Option Char
  | '"' => some '"'
  | '\\' => some '\\'
  | '/' => some '/'
  | 'b' => some '\x08'
  | 'f' => some '\x0c'
  | 'n' => some '\n'
  | 'r' => some '\r'
  | 't' => some '\t'
  | _ => none

def isHighSurrogate (n : Nat) : Bool := 0xD800 ≤ n && n ≤ 0xDBFF

def isLowSurrogate (n : Nat) : Bool := 0xDC00 ≤ n && n ≤ 0xDFFF

def combine (high low : Nat) : Char :=
  Char.ofNat ((high - 0xD800) * 0x400 + (low - 0xDC00) + 0x10000)

/-- Reads a string after its opening quote. A high surrogate has to be followed by the escape of a
low one, and a low one has to follow such. -/
def scanText (text : String) : Scan String
  | [] => .error .truncated
  | '"' :: cs => .ok (text, cs)
  | '\\' :: 'u' :: a :: b :: c :: d :: cs =>
    match codeUnit? a b c d with
    | none => .error .malformed
    | some unit =>
      if isLowSurrogate unit then .error .malformed
      else if isHighSurrogate unit then
        match cs with
        | '\\' :: 'u' :: e :: f :: g :: h :: cs =>
          match codeUnit? e f g h with
          | none => .error .malformed
          | some low =>
            if isLowSurrogate low then scanText (text.push (combine unit low)) cs
            else .error .malformed
        | '\\' :: 'u' :: cs => .error (digitsFault cs)
        | ['\\'] => .error .truncated
        | [] => .error .truncated
        | _ => .error .malformed
      else scanText (text.push (Char.ofNat unit)) cs
  | '\\' :: 'u' :: cs => .error (digitsFault cs)
  | '\\' :: c :: cs =>
    match escaped? c with
    | some e => scanText (text.push e) cs
    | none => .error .malformed
  | ['\\'] => .error .truncated
  | c :: cs => if c < ' ' then .error .malformed else scanText (text.push c) cs

/-- Skips a string after its opening quote. Any four digits pass as an escape. -/
def skipText : Scan Unit
  | [] => .error .truncated
  | '"' :: cs => .ok ((), cs)
  | '\\' :: 'u' :: a :: b :: c :: d :: cs =>
    if (codeUnit? a b c d).isSome then skipText cs else .error .malformed
  | '\\' :: 'u' :: cs => .error (digitsFault cs)
  | '\\' :: c :: cs => if (escaped? c).isSome then skipText cs else .error .malformed
  | ['\\'] => .error .truncated
  | c :: cs => if c < ' ' then .error .malformed else skipText cs

end TimedCache.Json
