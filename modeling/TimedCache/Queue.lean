/-!
Bounded first-in first-out queues between a caller and a worker. A caller that will not wait
offers an item and may be refused; a caller that waits keeps its place in line, so its item counts
as queued at once even when the queue is full. A closed queue takes nothing and holds nothing.
-/

namespace TimedCache

structure Queue (α : Type) where
  capacity : Nat
  items : List α := []
  closed : Bool := false
  deriving Repr

namespace Queue

variable {α : Type}

def isFull (q : Queue α) : Bool := decide (q.capacity ≤ q.items.length)

/-- Appends an item for a caller that does not wait; the flag tells whether it was taken. -/
def offer (q : Queue α) (a : α) : Bool × Queue α :=
  if q.closed || q.isFull then (false, q) else (true, { q with items := q.items ++ [a] })

/-- Appends an item for a caller that waits for room; refused only once closed. -/
def send (q : Queue α) (a : α) : Bool × Queue α :=
  if q.closed then (false, q) else (true, { q with items := q.items ++ [a] })

def receive? (q : Queue α) : Option (α × Queue α) :=
  match q.items with
  | [] => none
  | a :: rest => some (a, { q with items := rest })

def close (q : Queue α) : Queue α := { q with items := [], closed := true }

end Queue

end TimedCache
