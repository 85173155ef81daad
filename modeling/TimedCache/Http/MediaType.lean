/-!
Media types of message bodies, as far as telling JSON apart takes: a type, a subtype that may end
in a suffix after a plus sign, and parameters, of which only the form matters.
-/

namespace TimedCache.Http

def isTokenChar (c : Char) : Bool :=
  c.isAlphanum || "!#$%&'*+-.^_\u0060|~".toList.contains c

inductive ParameterState where
  | start
  | name
  | valueStart
  | value
  | quoteStart
  | quote
  | afterQuote
  deriving DecidableEq, Repr

/-- The state after one more character, unless the character is out of place. A quoted value has
at least one character, so a quote right after the opening one belongs to the value. -/
def ParameterState.next (state : ParameterState) (c : Char) : Option ParameterState :=
  match state with
  | .start => if c = ' ' then some .start else if isTokenChar c then some .name else none
  | .name => if c = '=' then some .valueStart else if isTokenChar c then some .name else none
  | .valueStart =>
    if c = '"' then some .quoteStart else if isTokenChar c then some .value else none
  | .value => if c = ';' then some .start else if isTokenChar c then some .value else none
  | .quoteStart => if ' ' ≤ c ∧ c ≠ '\x7f' then some .quote else none
  | .quote =>
    if c = '"' then some .afterQuote
    else if ' ' ≤ c ∧ c ≠ '\x7f' then some .quote else none
  | .afterQuote => if c = ';' then some .start else if c = ' ' then some .afterQuote else none

def ParameterState.final : ParameterState → Bool
  | .start | .valueStart | .value | .afterQuote => true
  | .name | .quoteStart | .quote => false

def wellFormedParameters (cs : List Char) : Bool :=
  match cs.foldlM ParameterState.next .start with
  | some state => state.final
  | none => false

/-- The part before the last plus sign and the part after it; a leading plus sign does not
count. -/
def splitSuffix (subtype : List Char) : List Char × Option (List Char) :=
  let suffix := (subtype.reverse.takeWhile (· != '+')).reverse
  let base := subtype.take (subtype.length - suffix.length - 1)
  if base.isEmpty then (subtype, none) else (base, some suffix)

def sameName (a : List Char) (name : String) : Bool := a.map (·.toLower) == name.toList

/-- Whether a `content-type` header announces JSON: `application` with the subtype or the suffix
`json`. -/
def announcesJson (header : String) : Bool :=
  let cs := header.toList
  let kind := cs.takeWhile isTokenChar
  match cs.dropWhile isTokenChar with
  | '/' :: rest =>
    let subtype := rest.takeWhile (· != ';')
    let parameters := (rest.dropWhile (· != ';')).drop 1
    let (base, suffix) := splitSuffix subtype
    cs.all (fun c => c == '\t' || (' ' ≤ c && c < '\x7f'))
      && subtype.all isTokenChar && wellFormedParameters parameters
      && sameName kind "application"
      && (sameName base "json" || (suffix.map (sameName · "json")).getD false)
  | _ => false

end TimedCache.Http
