import TimedCache.Json.Scan

/-!
What a request is aimed at. Paths match exactly; the key in a path is one segment that is not
empty, percent-encoded.
-/

namespace TimedCache.Http

/-- The places of the service; a key is kept as it was written. -/
inductive Route where
  | set
  | get (segment : String)
  | delete (segment : String)
  | clear
  | statistics
  | health
  deriving DecidableEq, Repr

namespace Route

def afterAuthority? : List Char → Option (List Char)
  | ':' :: '/' :: '/' :: rest => some (rest.dropWhile fun c => c != '/' && c != '?' && c != '#')
  | _ :: rest => afterAuthority? rest
  | [] => none

/-- The path of a target, without query and fragment. A target that does not start with its path
may name a scheme and an authority before it. -/
def path (target : String) : String :=
  let own := match target.toList with
    | '/' :: rest => '/' :: rest
    | other => (afterAuthority? other).getD other
  String.ofList (own.takeWhile fun c => c != '?' && c != '#')

def ofTarget? (target : String) : Option Route :=
  match ((path target).toList.splitOn '/').map String.ofList with
  | ["", "set"] => some .set
  | ["", "get", segment] => if segment.isEmpty then none else some (.get segment)
  | ["", "del", segment] => if segment.isEmpty then none else some (.delete segment)
  | ["", "clear"] => some .clear
  | ["", "stats"] => some .statistics
  | ["", "health"] => some .health
  | _ => none

/-- The methods that a place understands. Where something is got, its head can be got too. -/
def methods : Route → List String
  | .set => ["PUT"]
  | .get _ | .statistics | .health => ["GET", "HEAD"]
  | .delete _ => ["DELETE"]
  | .clear => ["POST"]

def allow (r : Route) : String := ",".intercalate r.methods

end Route

/-! ## Percent-encoding -/

def hexByte? (b : UInt8) : Option Nat := Json.hexDigit? (Char.ofNat b.toNat)

/-- Replaces each percent sign with two hexadecimal digits by the byte it stands for; other
percent signs stand for themselves. -/
def percentDecode (bytes : List UInt8) : List UInt8 :=
  match bytes with
  | [] => []
  | p :: rest =>
    if p = 0x25 then
      match rest with
      | high :: low :: tail =>
        match hexByte? high, hexByte? low with
        | some h, some l => UInt8.ofNat (16 * h + l) :: percentDecode tail
        | _, _ => p :: percentDecode (high :: low :: tail)
      | short => p :: short
    else p :: percentDecode rest

def keyOfSegment? (segment : String) : Option String :=
  String.fromUTF8? ⟨(percentDecode segment.toUTF8.toList).toArray⟩

end TimedCache.Http
