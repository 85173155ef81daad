import TimedCache.Json.Number

/-!
Skipping a whole JSON value, nested as deeply as it may be. The open brackets are kept in a list,
so the depth costs no recursion.
-/

namespace TimedCache.Json

inductive Frame where
  | list
  | object
  deriving DecidableEq, Repr

def Frame.closer : Frame → Char
  | .list => ']'
  | .object => '}'

inductive Phase where
  | value
  /-- The name of a member, up to its colon. -/
  | member
  /-- A bracket was just opened. -/
  | opened
  /-- A value is complete. -/
  | complete

def skipScalar (c : Char) (cs : List Char) : Except Fault (Unit × List Char) :=
  match c with
  | 'n' => scanWord "ull".toList cs
  | 't' => scanWord "rue".toList cs
  | 'f' => scanWord "alse".toList cs
  | '"' => skipText cs
  | c => if c == '-' || c.isDigit then skipNumber (c :: cs) else .error .malformed

/-- The phase in which the inside of a bracket goes on. -/
def Frame.inside : Frame → Phase
  | .list => .value
  | .object => .member

/-- Takes one step; the text that is left once the value is complete ends the run. -/
def skipStep (phase : Phase) (frames : List Frame) (cs : List Char) :
    Except Fault (List Char ⊕ (Phase × List Frame × List Char)) :=
  match phase, frames with
  | .complete, [] => .ok (.inl cs)
  | .complete, frame :: outer =>
    match skipBlanks cs with
    | [] => .error .truncated
    | ',' :: cs => .ok (.inr (frame.inside, frame :: outer, cs))
    | c :: cs =>
      if c = frame.closer then .ok (.inr (.complete, outer, cs)) else .error .malformed
  | .opened, [] => .ok (.inl cs)
  | .opened, frame :: outer =>
    match skipBlanks cs with
    | [] => .error .truncated
    | c :: cs =>
      if c = frame.closer then .ok (.inr (.complete, outer, cs))
      else .ok (.inr (frame.inside, frame :: outer, c :: cs))
  | .member, frames =>
    match skipBlanks cs with
    | [] => .error .truncated
    | '"' :: cs => do
      let (_, cs) ← skipText cs
      match skipBlanks cs with
      | [] => .error .truncated
      | ':' :: cs => .ok (.inr (.value, frames, cs))
      | _ => .error .malformed
    | _ => .error .malformed
  | .value, frames =>
    match skipBlanks cs with
    | [] => .error .truncated
    | '[' :: cs => .ok (.inr (.opened, .list :: frames, cs))
    | '{' :: cs => .ok (.inr (.opened, .object :: frames, cs))
    | c :: cs => do
      let (_, cs) ← skipScalar c cs
      .ok (.inr (.complete, frames, cs))

def skipRun : Nat → Phase → List Frame → List Char → Except Fault (Unit × List Char)
  | 0, _, _, _ => .error .truncated
  | fuel + 1, phase, frames, cs =>
    match skipStep phase frames cs with
    | .error fault => .error fault
    | .ok (.inl rest) => .ok ((), rest)
    | .ok (.inr (phase, frames, cs)) => skipRun fuel phase frames cs

/-- Skips one value. Of two steps in a row at least one takes a character, so twice as many steps
as there are characters, and two more, are enough. -/
def skipValue (cs : List Char) : Except Fault (Unit × List Char) :=
  skipRun (2 * cs.length + 2) .value [] cs

end TimedCache.Json
