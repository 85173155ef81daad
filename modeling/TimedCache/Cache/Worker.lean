import TimedCache.Cache.Basic

/-!
The worker. It takes one message at a time, from the write queue first, then from the batches of
read notes, then from the fired timers, and is the only one to touch the recency list and the
timers. An operation for an entry that has lost its slot meanwhile has no effect on whatever took
its place.
-/

namespace TimedCache.Cache

variable {V : Type}

/-- Runs a callback for an entry, if there is one. A failing callback stops the worker. -/
def announce (c : Cache V) (hook : Option Hook) (reason : Departure) (s : Serial) : Cache V :=
  match hook, c.contents.entry? s with
  | some hook, some e =>
    let c := c.record (.left reason s e.key e.value)
    if hook.fails e.key then c.halt else c
  | _, _ => c

/-- Sets the timer for an entry's end, or removes the key's timer if the entry has none. A wheel
that stands at the last tick takes no timer, and the worker stops. -/
def schedule (c : Cache V) (s : Serial) : Cache V :=
  match c.contents.entry? s with
  | none => c
  | some e =>
    match e.evictAt c.options.expireDelay with
    | none => { c with expiry := (c.expiry.remove e.key).2 }
    | some moment =>
      if c.expiry.atLastTick then c.halt
      else { c with expiry := (c.expiry.replace c.clock e.key s moment).2 }

def retire (c : Cache V) (s : Serial) : Cache V :=
  match c.contents.entry? s with
  | none => c
  | some e =>
    let c := { c with
      expiry := (c.expiry.removeOwned e.key s).2, counters := c.counters.eviction }
    c.announce c.options.onDelete .evicted s

/-- Links an inserted entry or moves an overwritten one to the front, and renews its timer. Only an
entry that readers find under its key owns the key's timer. -/
def upsert (c : Cache V) (s : Serial) : Cache V :=
  let (evicted, recency, contents) := c.recency.add c.contents s
  let c := { c with recency, contents }
  let c := if c.contents.occupies s && (c.contents.handle? s).isSome then c.schedule s else c
  match evicted with
  | some victim => if c.isClosed then c else c.retire victim
  | none => c

/-- Unlinks an entry that was deleted. Its key's timer goes with it unless it is another's. -/
def bury (c : Cache V) (s : Serial) : Cache V :=
  let (_, recency, contents) := c.recency.remove c.contents s
  let c := { c with recency, contents }
  match c.contents.entry? s with
  | none => c
  | some e =>
    let c := { c with expiry := (c.expiry.removeOwned e.key s).2 }
    c.announce c.options.onDelete .deleted s

def wipe (c : Cache V) : Cache V :=
  let (recency, contents) := c.recency.clear c.contents
  { c with recency, contents := contents.clearSlots, expiry := c.expiry.clear }

/-- Follows up a fired timer. It counts if it is still the one on record for the key and its entry
still holds the slot; then the entry goes if its end has come. An entry whose end was put off
since gets a new timer. -/
def expire (c : Cache V) (id : TimerId) (key : String) : Cache V :=
  let (owner, expiry) := c.expiry.acknowledge key id
  let c := { c with expiry }
  match owner with
  | none => c
  | some s =>
    if c.contents.occupant? key = some s then
      match (c.contents.entry? s).bind (·.evictAt c.options.expireDelay) with
      | none => c
      | some moment =>
        if moment ≤ c.clock.timestamp then
          match c.recency.remove c.contents s with
          | (some _, recency, contents) =>
            let c := { c with recency, contents, counters := c.counters.expiration }
            c.announce c.options.onExpire .expired s
          | (none, recency, contents) => { c with recency, contents }
        else
          c.schedule s
    else
      c

def apply (c : Cache V) : WriteOp → Cache V
  | .set s => c.upsert s
  | .update s => c.upsert s
  | .delete s => c.bury s
  | .clear => c.wipe
  | .flush => c

def work (c : Cache V) : Cache V :=
  match c.writes.receive? with
  | some (op, writes) => ({ c with writes } : Cache V).apply op
  | none =>
    match c.reads.receive? with
    | some (batch, reads) => { c with reads, recency := c.recency.hitAll batch }
    | none =>
      match c.fired with
      | (id, key) :: fired => ({ c with fired } : Cache V).expire id key
      | [] => c

def workSteps (c : Cache V) : Nat → Cache V
  | 0 => c
  | n + 1 => c.work.workSteps n

/-- The messages that wait for the worker. No step adds to them. -/
def backlog (c : Cache V) : Nat :=
  c.writes.items.length + c.reads.sink.items.length + c.fired.length

def applyWrites (c : Cache V) : Cache V := c.workSteps c.writes.items.length

def catchUp (c : Cache V) : Cache V := c.workSteps c.backlog

def settle (c : Cache V) : Cache V := if c.paused then c else c.catchUp

end TimedCache.Cache
