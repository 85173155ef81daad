import TimedCache.Cache.Access

/-!
Loading what is missing. A caller that finds no live value joins the load of its key: the first
one leads and runs the loader, the others follow and receive what it publishes. A loaded value is
stored without waiting for the worker, and is returned even if it could not be stored. A failed
load hands each caller the stale value that it saw.
-/

namespace TimedCache

structure LoadCall (V : Type) where
  key : String
  /-- The stale value that the caller saw. -/
  stale : Option V
  seat : Seat

inductive LoadAnswer (V : Type) where
  | done (result : Except (LoadFailure V) V)
  | pending (call : LoadCall V)

namespace Cache

variable {V : Type}

/-- A caller looks its key up and, without a live value, joins the load. A leader looks once more
before it calls the loader, since the value may have come meanwhile. -/
def beginLoad (c : Cache V) (key : String) : LoadAnswer V × Cache V :=
  match c.getWithStatus key with
  | ((some value, .exist), c) => (.done (.ok value), c)
  | ((value, status), c) =>
    let stale := if status = .expired then value else none
    let (seat, loads) := c.loads.enter key
    let c : Cache V := { c with loads }
    match seat with
    | .follower _ => (.pending { key, stale, seat }, c)
    | .leader call =>
      match c.peek key with
      | some value =>
        (.done (.ok value), { c with loads := c.loads.publish key call (.ok value) })
      | none => (.pending { key, stale, seat }, c.record (.loading key))

def lookLoad (c : Cache V) (call : LoadCall V) : LoadAnswer V :=
  match call.seat with
  | .leader _ => .pending call
  | .follower id =>
    match c.loads.outcome? call.key id with
    | none => .pending call
    | some (.ok value) => .done (.ok value)
    | some (.error error) => .done (.error { error, stale := call.stale })

/-- The loader of a leader has answered: a value is stored, and the result is published. A
follower ran no loader and merely looks. -/
def finishLoad (c : Cache V) (call : LoadCall V) (answer : Except LoaderFault V) (ttl : Span) :
    LoadAnswer V × Cache V :=
  match call.seat with
  | .follower _ => (c.lookLoad call, c)
  | .leader id =>
    match answer with
    | .ok value =>
      let (_, c) := c.store call.key value ttl false
      (.done (.ok value), { c with loads := c.loads.publish call.key id (.ok value) })
    | .error fault =>
      let error := CacheError.load fault
      (.done (.error { error, stale := call.stale }),
        { c with loads := c.loads.publish call.key id (.error error) })

def cancelLoad (c : Cache V) (call : LoadCall V) : Cache V :=
  match call.seat with
  | .leader id => { c with loads := c.loads.abandon call.key id }
  | .follower _ => c

def getOrLoadWith (c : Cache V) (key : String) (loader : Loader V) (ttl : Span) :
    LoadAnswer V × Cache V :=
  match c.beginLoad key with
  | (.done result, c) => (.done result, c)
  | (.pending call, c) => c.finishLoad call (loader key) ttl

def getOrLoad (c : Cache V) (key : String) : LoadAnswer V × Cache V :=
  match c.options.loader with
  | none => (.done (.error { error := .loaderNotConfigured }), c)
  | some loader => c.getOrLoadWith key loader c.options.defaultTtl

/-! ## Many keys at once -/

/-- Looks up keys in order: the values found, and the keys without one as often as asked for. -/
def getMany (c : Cache V) :
    List String → (Std.HashMap String (Option V) × List String) × Cache V
  | [] => ((∅, []), c)
  | key :: rest =>
    let (value, c) := c.get key
    let ((found, missing), c) := c.getMany rest
    match value with
    | some value => ((found.insert key (some value), missing), c)
    | none => ((found, key :: missing), c)

def storeAll (c : Cache V) (ttl : Span) (pairs : List (String × V)) : Cache V :=
  pairs.foldl (fun c (key, value) => (c.store key value ttl false).2) c

/-- The live values of some keys; the others are asked of a loader, all at once, and everything
it answers is stored. A key found in neither place is answered with nothing. -/
def getManyOrLoadWith (c : Cache V) (keys : List String) (loader : BatchLoader V) (ttl : Span) :
    Except CacheError (Std.HashMap String (Option V)) × Cache V :=
  let ((found, missing), c) := c.getMany keys
  if missing.isEmpty then (.ok found, c)
  else
    let c := c.record (.loadingAll missing)
    match loader missing with
    | .error fault => (.error (.load fault), c)
    | .ok loaded =>
      (.ok (missing.foldl (fun found key => found.insert key loaded[key]?) found),
        c.storeAll ttl loaded.toList)

def getManyOrLoad (c : Cache V) (keys : List String) :
    Except CacheError (Std.HashMap String (Option V)) × Cache V :=
  match c.options.batchLoader with
  | none => (.error .loaderNotConfigured, c)
  | some loader => c.getManyOrLoadWith keys loader c.options.defaultTtl

end Cache

end TimedCache
