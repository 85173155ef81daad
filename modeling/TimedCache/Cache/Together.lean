import TimedCache.Cache.Load

/-!
Several callers who ask for one key at the same time. They start in order, before any loader
answers; then either the loaders answer, or the first caller is cancelled. The unfinished callers
go on in order after that.
-/

namespace TimedCache

/-- Whether the caller leads a load that has not finished. -/
def LoadAnswer.leads {V : Type} : LoadAnswer V → Bool
  | .pending { seat := .leader _, .. } => true
  | _ => false

namespace Cache

variable {V : Type}

def beginLoads (c : Cache V) (key : String) : Nat → List (LoadAnswer V) × Cache V
  | 0 => ([], c)
  | n + 1 =>
    let (answer, c) := c.beginLoad key
    let (answers, c) := c.beginLoads key n
    (answer :: answers, c)

def finishLoads (c : Cache V) (loader : Loader V) (ttl : Span) :
    List (LoadAnswer V) → List (LoadAnswer V) × Cache V
  | [] => ([], c)
  | answer :: rest =>
    let (answer, c) := match answer with
      | .pending call => c.finishLoad call (loader call.key) ttl
      | done => (done, c)
    let (answers, c) := c.finishLoads loader ttl rest
    (answer :: answers, c)

def lookAgain (c : Cache V) : LoadAnswer V → LoadAnswer V
  | .pending call => c.lookLoad call
  | done => done

/-- The first caller is cancelled unless it has finished, and the others go on while their loaders
do not answer. A cancelled caller has no answer. -/
def cancelFirst (c : Cache V) : List (LoadAnswer V) → List (Option (LoadAnswer V)) × Cache V
  | .pending call :: rest =>
    let c := c.cancelLoad call
    (none :: rest.map fun answer => some (c.lookAgain answer), c)
  | answers => (answers.map fun answer => some (c.lookAgain answer), c)

end Cache

end TimedCache
