import TimedCache.Cache.Access
import TimedCache.Http.MediaType
import TimedCache.Http.Reply
import TimedCache.Http.Target
import TimedCache.SetRequest

/-!
The service in front of a cache of texts. A request is turned down for its method, its key or its
body before the cache is touched; what is left is one operation on the cache, and its outcome is
the answer.
-/

namespace TimedCache.Http

structure Request where
  method : String
  target : String
  contentType : Option String := none
  body : String := ""
  /-- The number of the task that the service starts for a write. -/
  task : Nat := 0

def maxBodyBytes : Nat := 2097152

/-- A request that has passed everything that does not need the cache. -/
inductive Action where
  | set (request : SetRequest)
  | get (key : String)
  | delete (key : String)
  | clear
  | statistics
  | health

def readSetRequest (r : Request) : Except Response SetRequest :=
  if !(r.contentType.map announcesJson).getD false then .error (.plainText 415)
  else if maxBodyBytes < r.body.utf8ByteSize then .error (.plainText 413)
  else
    match SetRequest.ofLeadingText r.body with
    | .ok request => .ok request
    | .error .mismatched => .error (.plainText 422)
    | .error _ => .error (.plainText 400)

def Route.action (route : Route) (r : Request) : Except Response Action :=
  match route with
  | .set => (readSetRequest r).map .set
  | .get segment =>
    match keyOfSegment? segment with
    | some key => .ok (.get key)
    | none => .error (.plainText 400)
  | .delete segment =>
    match keyOfSegment? segment with
    | some key => .ok (.delete key)
    | none => .error (.plainText 400)
  | .clear => .ok .clear
  | .statistics => .ok .statistics
  | .health => .ok .health

/-- The answer where a task fails to fix the deadline of its write. -/
def taskFailed (task : Nat) : Response :=
  .ofError (.internal ("cache task failed: task " ++ toString task ++
    " panicked with message \"overflow when adding duration to instant\""))

/-- Stores the value of a request, for the default time to live if it asks for none. -/
def handleSet (c : Cache String) (defaultTtl : Span) (task : Nat) (r : SetRequest) :
    Response × Cache String :=
  match r.fault? with
  | some reason => (.ofError (.invalidRequest reason), c)
  | none =>
    let ttl := (r.ttl.map Span.ofSeconds).getD defaultTtl
    if c.setDeadlineFits then
      let (stored, c) := c.setFor r.key r.value ttl
      (if stored then .json 200 (.stored r.key) else .ofError (.rejected r.key), c)
    else
      (taskFailed task, c.strandSet r.key r.value ttl)

/-- Answers with the value of a key, a stale one included. -/
def handleGet (c : Cache String) (key : String) : Response × Cache String :=
  match c.getWithStatus key with
  | ((some value, status), c) =>
    if status = .notExist then (.ofError (.notFound key), c)
    else (.json 200 (.found key value status), c)
  | ((none, _), c) => (.ofError (.notFound key), c)

def handleDelete (c : Cache String) (task : Nat) (key : String) : Response × Cache String :=
  if c.deleteDeadlineFits key then (.json 200 (.deleted key), c.delete key)
  else (taskFailed task, c.strandDelete key)

def Action.run (c : Cache String) (defaultTtl : Span) (task : Nat) :
    Action → Except Overflow (Response × Cache String)
  | .set request => .ok (handleSet c defaultTtl task request)
  | .get key => .ok (handleGet c key)
  | .delete key => .ok (handleDelete c task key)
  | .clear => .ok (.json 200 .cleared, c.clear)
  | .statistics => (Reply.ofStatistics c.statistics).map fun reply => (.json 200 reply, c)
  | .health => (Reply.ofHealth c.clock).map fun reply => (.json 200 reply, c)

/-- Answers a request. Asking for the options of any target is fine; a head is the answer without
its body. -/
def handle (c : Cache String) (defaultTtl : Span) (r : Request) :
    Except Overflow (Response × Cache String) :=
  let route := Route.ofTarget? r.target
  if r.method = "OPTIONS" then
    .ok ({ status := 200, allow := route.map Route.allow }, c)
  else
    match route with
    | none => .ok ({ status := 404 }, c)
    | some route =>
      if !route.methods.contains r.method then
        .ok ({ status := 405, allow := some route.allow }, c)
      else
        let answer := match route.action r with
          | .ok action => action.run c defaultTtl r.task
          | .error response => .ok (response, c)
        if r.method = "HEAD" then
          answer.map fun (response, c) => ({ response with body := none }, c)
        else answer

end TimedCache.Http
