import TimedCache.Json.Skip

/-!
Requests to store a value, as JSON text: an object with the members `key`, `value` and, if wanted,
`ttl`, or an array of these in this order. Members of other names are skipped; none may be given
twice.
-/

namespace TimedCache

/-- A value to store under a key, with a time to live in seconds if one is asked for. -/
structure SetRequest where
  key : String
  value : String
  ttl : Option Nat := none
  deriving DecidableEq, Repr

namespace SetRequest

open Json

def maxKeyBytes : Nat := 256

def maxValueBytes : Nat := 1048576

def fault? (r : SetRequest) : Option String :=
  if r.key.isEmpty then some "Key cannot be empty"
  else if maxKeyBytes < r.key.utf8ByteSize then
    some ("Key exceeds maximum length of " ++ toString maxKeyBytes ++ " bytes")
  else if maxValueBytes < r.value.utf8ByteSize then
    some ("Value exceeds maximum size of " ++ toString maxValueBytes ++ " bytes")
  else none

/-! ## Reading -/

/-- What is wrong where something other than the wanted kind of value begins: that it is
mismatched, unless it is not even well-formed. -/
def otherFault : List Char → Fault
  | [] => .truncated
  | c :: cs =>
    let outcome : Except Fault Unit :=
      match c with
      | 'n' => (scanWord "ull".toList cs).map (·.1)
      | 't' => (scanWord "rue".toList cs).map (·.1)
      | 'f' => (scanWord "alse".toList cs).map (·.1)
      | '"' => (scanText "" cs).map fun _ => ()
      | '[' | '{' => .ok ()
      | c =>
        if c == '-' || c.isDigit then (scanNumber (c :: cs)).map fun _ => ()
        else .error .malformed
    match outcome with
    | .ok () => .mismatched
    | .error fault => fault

def scanString (cs : List Char) : Except Fault (String × List Char) :=
  match skipBlanks cs with
  | '"' :: cs => scanText "" cs
  | cs => .error (otherFault cs)

def scanTtl (cs : List Char) : Except Fault (Option Nat × List Char) :=
  match skipBlanks cs with
  | 'n' :: cs => do
    let (_, cs) ← scanWord "ull".toList cs
    return (none, cs)
  | c :: cs =>
    if c == '-' || c.isDigit then
      match scanNumber (c :: cs) with
      | .ok (some n, cs) => .ok (some n, cs)
      | .ok (none, _) => .error .mismatched
      | .error fault => .error fault
    else .error (otherFault (c :: cs))
  | [] => .error .truncated

structure Members where
  key : Option String := none
  value : Option String := none
  ttl : Option (Option Nat) := none

def Members.request (m : Members) : Except Fault SetRequest :=
  match m.key, m.value with
  | some key, some value => .ok { key, value, ttl := m.ttl.join }
  | _, _ => .error .mismatched

def scanColon (cs : List Char) : Except Fault (List Char) :=
  match skipBlanks cs with
  | ':' :: cs => .ok cs
  | [] => .error .truncated
  | _ => .error .malformed

/-- Reads one member after the opening quote of its name. A name given before is refused before
its value is looked at. -/
def scanMember (m : Members) (cs : List Char) : Except Fault (Members × List Char) := do
  let (name, cs) ← scanText "" cs
  match name with
  | "key" =>
    if m.key.isSome then throw .mismatched
    let (key, cs) ← scanString (← scanColon cs)
    return ({ m with key := some key }, cs)
  | "value" =>
    if m.value.isSome then throw .mismatched
    let (value, cs) ← scanString (← scanColon cs)
    return ({ m with value := some value }, cs)
  | "ttl" =>
    if m.ttl.isSome then throw .mismatched
    let (ttl, cs) ← scanTtl (← scanColon cs)
    return ({ m with ttl := some ttl }, cs)
  | _ =>
    let (_, cs) ← skipValue (← scanColon cs)
    return (m, cs)

/-- Reads the members of an object up to its end; `first` tells that none came yet. Each member
takes characters, so the length of the text bounds their number. -/
def scanMembers : Nat → Bool → Members → List Char → Except Fault (SetRequest × List Char)
  | 0, _, _, _ => .error .truncated
  | fuel + 1, first, m, cs =>
    match skipBlanks cs with
    | [] => .error .truncated
    | '}' :: cs => do
      let request ← m.request
      return (request, cs)
    | '"' :: cs =>
      if first then do
        let (m, cs) ← scanMember m cs
        scanMembers fuel false m cs
      else .error .malformed
    | ',' :: cs =>
      if first then .error .malformed
      else
        match skipBlanks cs with
        | [] => .error .truncated
        | '"' :: cs => do
          let (m, cs) ← scanMember m cs
          scanMembers fuel false m cs
        | _ => .error .malformed
    | _ => .error .malformed

def nextElement (first : Bool) (cs : List Char) : Except Fault (Option (List Char)) :=
  match skipBlanks cs with
  | [] => .error .truncated
  | ']' :: _ => .ok none
  | ',' :: cs =>
    if first then .ok (some (',' :: cs))
    else
      match skipBlanks cs with
      | [] => .error .truncated
      | ']' :: _ => .error .malformed
      | cs => .ok (some cs)
  | cs => if first then .ok (some cs) else .error .malformed

/-- Finds the end of an array of which everything wanted has been read. -/
def scanArrayEnd (cs : List Char) : Except Fault (List Char) :=
  match skipBlanks cs with
  | ']' :: cs => .ok cs
  | [] => .error .truncated
  | _ => .error .malformed

/-- Reads the elements of an array: key, value and an optional time to live. -/
def scanElements (cs : List Char) : Except Fault (SetRequest × List Char) := do
  let some cs ← nextElement true cs | throw .mismatched
  let (key, cs) ← scanString cs
  let some cs ← nextElement false cs | throw .mismatched
  let (value, cs) ← scanString cs
  let (ttl, cs) ← match ← nextElement false cs with
    | some cs => scanTtl cs
    | none => pure (none, cs)
  return ({ key, value, ttl }, ← scanArrayEnd cs)

def scan (cs : List Char) : Except Fault (SetRequest × List Char) :=
  match skipBlanks cs with
  | '{' :: cs => scanMembers (cs.length + 1) true {} cs
  | '[' :: cs => scanElements cs
  | cs => .error (otherFault cs)

/-- Reads a text that is a request and nothing else but blanks. -/
def ofText (text : String) : Except Fault SetRequest := do
  let (request, rest) ← scan text.toList
  match skipBlanks rest with
  | [] => return request
  | _ => throw .malformed

/-- Reads a request and leaves out of account what comes after it. -/
def ofLeadingText (text : String) : Except Fault SetRequest :=
  (scan text.toList).map (·.1)

end SetRequest

end TimedCache
