import TimedCache.Http.Service

/-!
How requests come out. A request is answered without the cache, because it is turned down for its
form or only asks for the methods of its target, or it gets to the cache with an action. What the
action does to the cache and the status of the answer belong together: each outcome is one of a few.
-/

namespace TimedCache.Http

variable {c c' : Cache String} {defaultTtl : Span}

/-! ## Requests that get to the cache -/

/-- The time to live that a set asks for, or the default. -/
def lifetime (defaultTtl : Span) (set : SetRequest) : Span :=
  (set.ttl.map Span.ofSeconds).getD defaultTtl

/-- How an action can end: the status of the answer, and the cache after it. -/
inductive Outcome (c : Cache String) (defaultTtl : Span) : Action → Nat → Cache String → Prop where
  | unfit (set : SetRequest) (hfault : set.fault? ≠ none) : Outcome c defaultTtl (.set set) 400 c
  | stored (set : SetRequest) (hfits : c.setDeadlineFits = true)
    (hstored : (c.setFor set.key set.value (lifetime defaultTtl set)).1 = true) :
    Outcome c defaultTtl (.set set) 200 (c.setFor set.key set.value (lifetime defaultTtl set)).2
  | notApplied (set : SetRequest) (hfits : c.setDeadlineFits = true)
    (hfailed : (c.setFor set.key set.value (lifetime defaultTtl set)).1 = false) :
    Outcome c defaultTtl (.set set) 503 (c.setFor set.key set.value (lifetime defaultTtl set)).2
  | setStranded (set : SetRequest) (hlate : c.setDeadlineFits = false) :
    Outcome c defaultTtl (.set set) 500 (c.strandSet set.key set.value (lifetime defaultTtl set))
  | found (key : String) : Outcome c defaultTtl (.get key) 200 (c.getWithStatus key).2
  | notFound (key : String) : Outcome c defaultTtl (.get key) 404 (c.getWithStatus key).2
  | deleted (key : String) (hfits : c.deleteDeadlineFits key = true) :
    Outcome c defaultTtl (.delete key) 200 (c.delete key)
  | deleteStranded (key : String) (hlate : c.deleteDeadlineFits key = false) :
    Outcome c defaultTtl (.delete key) 500 (c.strandDelete key)
  | cleared : Outcome c defaultTtl .clear 200 c.clear
  | counted : Outcome c defaultTtl .statistics 200 c
  | alive : Outcome c defaultTtl .health 200 c

end TimedCache.Http
