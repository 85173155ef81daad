/-!
What can go wrong with a cache, and how it is told. A failed load keeps the stale value of its
key, so the caller can tell a stale answer from none.
-/

namespace TimedCache

/-- A loader's own failure: its message, and what was said around it, the innermost first. -/
structure LoaderFault where
  message : String
  context : List String := []
  deriving DecidableEq, Repr

/-- What a loader failure shows: the outermost text. -/
def LoaderFault.text (f : LoaderFault) : String := f.context.getLast?.getD f.message

inductive CacheError where
  | notFound (key : String)
  | invalidRequest (reason : String)
  /-- The write queue refused the change. -/
  | rejected (key : String)
  | internal (reason : String)
  | loaderNotConfigured
  | load (fault : LoaderFault)
  /-- The caller that led the load left before it had a result. -/
  | loadAbandoned (key : String)
  | alreadyRegistered (name : String)
  deriving DecidableEq, Repr

namespace CacheError

def message : CacheError → String
  | .notFound key => "Key not found: " ++ key
  | .invalidRequest reason => "Invalid request: " ++ reason
  | .rejected key => "Write rejected: " ++ key
  | .internal reason => "Internal error: " ++ reason
  | .loaderNotConfigured => "No loader configured"
  | .load fault => "Load failed: " ++ fault.text
  | .loadAbandoned key => "Load abandoned for key: " ++ key
  | .alreadyRegistered name => "Cache already registered: " ++ name

def httpStatus : CacheError → Nat
  | .notFound _ => 404
  | .invalidRequest _ => 400
  | .rejected _ => 503
  | .alreadyRegistered _ => 409
  | .load _ | .loadAbandoned _ => 502
  | .internal _ | .loaderNotConfigured => 500

end CacheError

/-- A failed load, with the stale value if the key had one. -/
structure LoadFailure (V : Type) where
  error : CacheError
  stale : Option V := none
  deriving DecidableEq, Repr

namespace LoadFailure

variable {V : Type}

def isExpired (f : LoadFailure V) : Bool := f.stale.isSome

def message (f : LoadFailure V) : String :=
  if f.isExpired then "expired: " ++ f.error.message else f.error.message

end LoadFailure

end TimedCache
