import TimedCache.Handle
import TimedCache.Queue
import TimedCache.Saturation

/-!
Notes of which nodes were read. Each reader writes into one stripe; a stripe that has gathered a
full batch hands it to the sink as a whole and starts anew. A batch that the sink refuses is
dropped and counted, and a note on a stripe that another reader holds is lost: how recently an
entry was read is only a hint.
-/

namespace TimedCache

structure ReadTracker where
  batchSize : Nat
  stripes : Array (Array Handle)
  sink : Queue (List Handle)
  /-- Batches that the sink refused. -/
  dropped : Nat := 0
  batchSize_pos : 0 < batchSize

namespace ReadTracker

/-- Empty stripes, at least one, for batches of at least one note. -/
def create (stripes batchSize sinkCapacity : Nat) : ReadTracker :=
  { batchSize := max batchSize 1
    stripes := Array.replicate (max stripes 1) #[]
    sink := { capacity := sinkCapacity }
    batchSize_pos := by omega }

/-- Whether there can be tables of the stripes and of the places of the sink, which take 32 bytes
each, and of the notes of a batch, which take 8. -/
def fits (stripes batchSize sinkCapacity : Nat) : Bool :=
  tableFits stripes 32 && tableFits batchSize 8 && tableFits sinkCapacity 32

def allocate (stripes batchSize sinkCapacity : Nat) : Except Overflow ReadTracker :=
  if fits stripes batchSize sinkCapacity then .ok (create stripes batchSize sinkCapacity)
  else .error .tableSize

def stripeOf (t : ReadTracker) (reader : Nat) : Nat := reader % t.stripes.size

def gathered (t : ReadTracker) (reader : Nat) : Array Handle :=
  (t.stripes[t.stripeOf reader]?).getD #[]

def flush (t : ReadTracker) (batch : List Handle) : ReadTracker :=
  match t.sink.offer batch with
  | (true, sink) => { t with sink }
  | (false, sink) => { t with sink, dropped := t.dropped + 1 }

def note (t : ReadTracker) (reader : Nat) (h : Handle) : ReadTracker :=
  { t with stripes := t.stripes.modify (t.stripeOf reader) (·.push h) }

def emptied (t : ReadTracker) (reader : Nat) : ReadTracker :=
  { t with stripes := t.stripes.modify (t.stripeOf reader) fun _ => #[] }

/-- Notes one read; a stripe that has gathered a batch is flushed. -/
def record (t : ReadTracker) (reader : Nat) (h : Handle) : ReadTracker :=
  let t := t.note reader h
  let notes := t.gathered reader
  if notes.size < t.batchSize then t else (t.emptied reader).flush notes.toList

/-- A read noted while another reader holds the stripe leaves no trace. -/
def recordContended (t : ReadTracker) (_reader : Nat) (_h : Handle) : ReadTracker := t

def receive? (t : ReadTracker) : Option (List Handle × ReadTracker) :=
  t.sink.receive?.map fun (batch, sink) => (batch, { t with sink })

/-- Closes the sink; batches still in it are lost. -/
def close (t : ReadTracker) : ReadTracker := { t with sink := t.sink.close }

def buffered (t : ReadTracker) : Nat := t.stripes.foldl (fun notes stripe => notes + stripe.size) 0

end ReadTracker

end TimedCache
