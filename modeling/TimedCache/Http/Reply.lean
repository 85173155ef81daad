import TimedCache.Entry
import TimedCache.Failure
import TimedCache.Statistics
import TimedCache.Time.Calendar

/-!
The bodies that the service answers with, each an object of a few named fields.
-/

namespace TimedCache.Http

/-- The value of a field. -/
inductive Field where
  | text (s : String)
  | count (n : Nat)
  | rate (r : Float)
  /-- A moment as RFC 3339 writes it, the year with a sign once it has more than four digits. -/
  | moment (m : Moment)

inductive Reply where
  | found (key value : String) (status : Status)
  | stored (key : String)
  | deleted (key : String)
  | cleared
  | statistics (s : Statistics) (hitRate : Float)
  | healthy (now : Moment)
  | failed (error : CacheError)

namespace Reply

def ofStatistics (s : Statistics) : Except Overflow Reply := s.hitRate.map (.statistics s)

def ofHealth (clock : Clock) : Except Overflow Reply := (Moment.ofClock clock).map .healthy

/-- The fields of the body, in order. -/
def fields : Reply → List (String × Field)
  | .found key value status =>
    [("key", .text key), ("value", .text value), ("status", .text status.label)]
  | .stored key =>
    [("message", .text ("Key '" ++ key ++ "' set successfully")), ("key", .text key)]
  | .deleted key => [("message", .text ("Key '" ++ key ++ "' deleted")), ("key", .text key)]
  | .cleared => [("message", .text "Cache cleared")]
  | .statistics s hitRate =>
    [("hits", .count s.hits), ("misses", .count s.misses), ("evictions", .count s.evictions),
      ("expirations", .count s.expirations), ("dropped_reads", .count s.droppedReads),
      ("rejected_writes", .count s.rejectedWrites), ("total_entries", .count s.totalEntries),
      ("hit_rate", .rate hitRate)]
  | .healthy now => [("status", .text "healthy"), ("timestamp", .moment now)]
  | .failed error => [("error", .text error.message)]

end Reply

/-- An answer of the service; headers that are absent are not sent. -/
structure Response where
  status : Nat
  contentType : Option String := none
  allow : Option String := none
  body : Option Reply := none

namespace Response

def json (status : Nat) (body : Reply) : Response :=
  { status, contentType := some "application/json", body := some body }

def ofError (e : CacheError) : Response := json e.httpStatus (.failed e)

/-- An answer in plain text, of which only the status matters. -/
def plainText (status : Nat) : Response :=
  { status, contentType := some "text/plain; charset=utf-8" }

end Response

end TimedCache.Http
