import TimedCache.Cache.Worker

/-!
Reading, writing and deleting. A write changes what readers see at once: an occupied slot is
overwritten in place, an empty one gets a new entry, and a delete empties the slot. The operation
for the worker follows. A new entry whose operation is refused is taken back; a refused overwrite
stays visible.
-/

namespace TimedCache.Cache

variable {V : Type}

/-! ## Reading -/

/-- Notes a read for the recency list; an entry that is not linked yet has nothing to note. -/
def noteRead (c : Cache V) (e : Entry V) : Cache V :=
  match e.handle? with
  | some h => { c with reads := c.reads.record 0 h }
  | none => c

/-- The value of a key and how it stands; counts as a hit only while the value is alive. -/
def getWithStatus (c : Cache V) (key : String) : (Option V × Status) × Cache V :=
  match c.contents.occupantEntry? key with
  | none => ((none, .notExist), { c with counters := c.counters.miss })
  | some e =>
    match e.statusAt c.clock.timestamp c.options.expireDelay with
    | .notExist => ((none, .notExist), { c with counters := c.counters.miss })
    | .exist =>
      ((some e.value, .exist), ({ c with counters := c.counters.hit } : Cache V).noteRead e)
    | .expired =>
      ((some e.value, .expired), ({ c with counters := c.counters.miss } : Cache V).noteRead e)

def get (c : Cache V) (key : String) : Option V × Cache V :=
  match c.getWithStatus key with
  | ((value, .exist), c) => (value, c)
  | (_, c) => (none, c)

/-- The value of a key while it is alive, without counting or noting the read. -/
def peek (c : Cache V) (key : String) : Option V :=
  match c.contents.occupantEntry? key with
  | some e =>
    if e.statusAt c.clock.timestamp c.options.expireDelay = .exist then some e.value else none
  | none => none

/-! ## Submitting -/

inductive Submission where
  /-- The worker has come to it while the caller waited. -/
  | applied
  | queued
  | rejected
  /-- It is queued, but the worker had not come to it when the wait ran out. -/
  | timedOut
  deriving DecidableEq, Repr

def Submission.accepted : Submission → Bool
  | .applied | .queued => true
  | .rejected | .timedOut => false

def offer (c : Cache V) (op : WriteOp) : Bool × Cache V :=
  match c.writes.offer op with
  | (true, writes) => (true, { c with writes })
  | (false, writes) => (false, { c with writes, counters := c.counters.rejectedWrite })

def send (c : Cache V) (op : WriteOp) : Bool × Cache V :=
  match c.writes.send op with
  | (sent, writes) => (sent, { c with writes })

def waits (c : Cache V) (wait : Bool) : Bool := wait && !c.paused && !c.isClosed

/-- Whether the worker makes room in the queue before a caller's wait runs out. -/
def findsRoom (c : Cache V) : Bool :=
  c.stint.all fun n => decide (c.writes.items.length < c.writes.capacity + n)

/-- Submits an operation for a caller whose wait is bounded, if there is one. A caller that waits
for a worker at work waits for room in the queue as well. -/
def handIn (c : Cache V) (op : WriteOp) (wait : Bool) : Bool × Cache V :=
  if c.waits wait && c.findsRoom then c.send op else c.offer op

def attend (c : Cache V) (wait : Bool) : Cache V :=
  let queued := c.writes.items.length
  if c.waits wait then c.workSteps (c.stint.elim queued (min · queued)) else c

/-- What became of an operation that was taken or refused, once its caller has waited. As it was the
last in the queue, a worker that goes on has come to it if nothing is left there. -/
def submission (c : Cache V) (taken wait : Bool) : Submission :=
  if !taken then .rejected
  else if !wait then .queued
  else if c.writes.items.isEmpty && !c.isClosed then .applied
  else .timedOut

/-! ## Writing -/

/-- What a caller who stores a value does before it waits; tells whether the operation was taken. -/
def lodge (c : Cache V) (key : String) (value : V) (ttl : Span) (wait : Bool) : Bool × Cache V :=
  let stamp := c.clock.stampAfter ttl
  match c.contents.occupant? key with
  | some s =>
    ({ c with contents := c.contents.modify s (·.overwrite value stamp) } : Cache V).handIn
      (.update s) wait
  | none =>
    let (s, contents) := c.contents.create key value stamp
    match ({ c with contents := contents.place s } : Cache V).handIn (.set s) wait with
    | (true, c) => (true, c)
    | (false, c) => (false, { c with contents := (c.contents.vacate s).2 })

def store (c : Cache V) (key : String) (value : V) (ttl : Span) (wait : Bool) :
    Bool × Cache V :=
  let (taken, c) := c.lodge key value ttl wait
  let c := c.attend wait
  ((c.submission taken wait).accepted, c)

/-- Stores a value for a time to live of its own; the zero span means for ever. -/
def setFor (c : Cache V) (key : String) (value : V) (ttl : Span) : Bool × Cache V :=
  c.store key value ttl c.options.syncSetTimeout.isSome

def set (c : Cache V) (key : String) (value : V) : Bool × Cache V :=
  c.setFor key value c.options.defaultTtl

/-! ## Deleting -/

/-- Empties the slot of a key, so that readers no longer find it; the worker does not know yet. -/
def detach (c : Cache V) (key : String) : Option Serial × Cache V :=
  match c.contents.takeKey key with
  | (taken, contents) => (taken, { c with contents })

/-- Tells the worker of a detached entry, waiting for room in the queue; false once closed. -/
def sendDelete (c : Cache V) (s : Serial) : Bool × Cache V := c.send (.delete s)

def delete (c : Cache V) (key : String) : Cache V :=
  match c.detach key with
  | (none, c) => c
  | (some s, c) =>
    if c.options.syncDelete then (c.handIn (.delete s) true).2.attend true
    else (c.sendDelete s).2

/-! ## Deadlines

A caller that waits fixes the moment at which it gives up before it submits anything. If the steady
clock cannot name that moment, the call fails.
-/

def setDeadlineFits (c : Cache V) : Bool :=
  match c.options.syncSetTimeout with
  | some timeout => c.clock.canAwait timeout
  | none => true

/-- Whether a delete of a key can fix its deadline; there is none where nothing is deleted. -/
def deleteDeadlineFits (c : Cache V) (key : String) : Bool :=
  !c.options.syncDelete || (c.contents.occupant? key).isNone
    || c.clock.canAwait c.options.deleteTimeout

def trySetFor (c : Cache V) (key : String) (value : V) (ttl : Span) :
    Except Overflow (Bool × Cache V) :=
  if c.setDeadlineFits then .ok (c.setFor key value ttl) else .error .deadline

def trySet (c : Cache V) (key : String) (value : V) : Except Overflow (Bool × Cache V) :=
  c.trySetFor key value c.options.defaultTtl

def tryDelete (c : Cache V) (key : String) : Except Overflow (Cache V) :=
  if c.deleteDeadlineFits key then .ok (c.delete key) else .error .deadline

/-- What is left of a set that could not fix its deadline: readers find the value, and the worker is
never told. -/
def strandSet (c : Cache V) (key : String) (value : V) (ttl : Span) : Cache V :=
  let stamp := c.clock.stampAfter ttl
  match c.contents.occupant? key with
  | some s => { c with contents := c.contents.modify s (·.overwrite value stamp) }
  | none =>
    let (s, contents) := c.contents.create key value stamp
    { c with contents := contents.place s }

/-- What is left of a delete that could not fix its deadline: readers no longer find the key, and
the worker is never told. -/
def strandDelete (c : Cache V) (key : String) : Cache V := (c.detach key).2

/-! ## Whole-cache operations -/

def await (c : Cache V) (op : WriteOp) : Cache V :=
  let c := (c.send op).2
  if c.paused then c else c.applyWrites

def clear (c : Cache V) : Cache V := c.await .clear

def flush (c : Cache V) : Cache V := c.await .flush

end TimedCache.Cache
