import TimedCache.Contents

/-!
The order in which entries were used. Linked entries sit in nodes of an arena, chained from the
most to the least recently used. A freed node is reused before the arena grows, under the next
generation, so a handle taken before the reuse no longer resolves. The list holds entries, not
keys: one that has lost its slot stays linked until it is deleted or its turn to be evicted comes.
-/

namespace TimedCache

/-- One place of the arena; free when it holds no entry. -/
structure Node where
  entry : Option Serial
  prev : Option Nat
  next : Option Nat
  generation : UInt32
  deriving DecidableEq, Repr

/-- The recency list; `capacity` zero means unbounded. -/
structure Recency where
  capacity : Nat
  nodes : Array Node := #[]
  /-- Free places, the last one freed first. -/
  free : List Nat := []
  head : Option Nat := none
  tail : Option Nat := none
  size : Nat := 0

namespace Recency

variable {V : Type}

def withCapacity (capacity : Nat) : Recency := { capacity }

/-- The place a handle stands for, while its occupant is the one the handle was made for. -/
def resolve? (r : Recency) (h : Handle) : Option Nat :=
  match r.nodes[h.index.toNat]? with
  | some node =>
    if node.generation = h.generation ∧ node.entry.isSome then some h.index.toNat else none
  | none => none

/-! ## Chaining -/

def setPrev (r : Recency) (i : Nat) (prev : Option Nat) : Recency :=
  { r with nodes := r.nodes.modify i ({ · with prev }) }

def setNext (r : Recency) (i : Nat) (next : Option Nat) : Recency :=
  { r with nodes := r.nodes.modify i ({ · with next }) }

def detach (r : Recency) (i : Nat) : Recency :=
  match r.nodes[i]? with
  | none => r
  | some node =>
    let r := match node.prev with
      | some p => r.setNext p node.next
      | none => { r with head := node.next }
    let r := match node.next with
      | some n => r.setPrev n node.prev
      | none => { r with tail := node.prev }
    (r.setPrev i none).setNext i none

def attachFront (r : Recency) (i : Nat) : Recency :=
  let old := r.head
  let r := (r.setPrev i none).setNext i old
  let r := match old with
    | some h => r.setPrev h (some i)
    | none => r
  { r with head := some i, tail := r.tail.or (some i) }

def moveToFront (r : Recency) (i : Nat) : Recency :=
  if r.head = some i then r else (r.detach i).attachFront i

/-! ## Places -/

def allocate (r : Recency) (s : Serial) : Handle × Recency :=
  match r.free with
  | i :: free =>
    let generation := (r.nodes[i]?.map (·.generation)).getD 0
    ({ index := UInt32.ofNat i, generation },
      { r with free, nodes := r.nodes.modify i ({ · with entry := some s }) })
  | [] =>
    let nodes := r.nodes.push { entry := some s, prev := none, next := none, generation := 0 }
    let index := UInt32.ofNat r.nodes.size
    let generation := (nodes[index.toNat]?.map (·.generation)).getD 0
    ({ index, generation }, { r with nodes })

/-- Unlinks the entry of a place and frees the place for the next generation. -/
def release (r : Recency) (c : Contents V) (i : Nat) : Option Serial × Recency × Contents V :=
  let r := r.detach i
  match r.nodes[i]?.bind (·.entry) with
  | none => (none, r, c)
  | some s =>
    let freed (node : Node) : Node :=
      { node with entry := none, generation := node.generation + 1 }
    (some s,
      { r with nodes := r.nodes.modify i freed, free := i :: r.free, size := r.size - 1 },
      c.unlink s)

/-! ## Operations -/

/-- Releases the least recently used entries until there is room for one more, and hands out the
entry whose slot was emptied for that. Entries without a slot give way unreported. -/
def evict (r : Recency) (c : Contents V) : Nat → Option Serial × Recency × Contents V
  | 0 => (none, r, c)
  | fuel + 1 =>
    if r.size < r.capacity then (none, r, c)
    else
      match r.tail with
      | none => (none, r, c)
      | some i =>
        match r.release c i with
        | (none, r, c) => (none, r, c)
        | (some s, r, c) =>
          match c.vacate s with
          | (true, c) => (some s, r, c)
          | (false, c) => evict r c fuel

/-- Makes room in a full list. Each round frees a place, so there are at most `size` of them. -/
def makeRoom (r : Recency) (c : Contents V) : Option Serial × Recency × Contents V :=
  if 0 < r.capacity ∧ r.capacity ≤ r.size then r.evict c r.size else (none, r, c)

/-- Moves a linked entry to the front, or links one that occupies its slot; any other entry is
left alone. Hands out the entry evicted for it. -/
def add (r : Recency) (c : Contents V) (s : Serial) : Option Serial × Recency × Contents V :=
  match (c.handle? s).bind r.resolve? with
  | some i => (none, r.moveToFront i, c)
  | none =>
    if c.occupies s then
      let (evicted, r, c) := r.makeRoom c
      let (h, r) := r.allocate s
      let r := r.attachFront h.index.toNat
      (evicted, { r with size := r.size + 1 }, c.link s h)
    else
      (none, r, c)

/-- Moves the entry of a handle to the front; a handle that no longer resolves does nothing. -/
def hit (r : Recency) (h : Handle) : Recency :=
  match r.resolve? h with
  | some i => r.moveToFront i
  | none => r

def hitAll (r : Recency) (handles : List Handle) : Recency := handles.foldl hit r

/-- Empties the entry's own slot and unlinks the entry; hands it out if it was linked. -/
def remove (r : Recency) (c : Contents V) (s : Serial) : Option Serial × Recency × Contents V :=
  let c := (c.vacate s).2
  match (c.handle? s).bind r.resolve? with
  | some i => r.release c i
  | none => (none, r, c)

def clear (r : Recency) (c : Contents V) : Recency × Contents V :=
  let freed (node : Node) : Node :=
    { entry := none, prev := none, next := none
      generation := if node.entry.isSome then node.generation + 1 else node.generation }
  let occupied := (List.range r.nodes.size).filter fun i =>
    (r.nodes[i]?.bind (·.entry)).isSome
  let places := occupied.map fun i => (UInt32.ofNat i).toNat
  let linked := r.nodes.toList.filterMap (·.entry)
  ({ r with
      nodes := r.nodes.map freed, free := places.reverse ++ r.free
      head := none, tail := none, size := 0 },
    linked.foldl Contents.unlink c)

/-! ## The list -/

/-- The entries met on the chain from a place on, within a number of nodes. -/
def walk (r : Recency) : Nat → Option Nat → List Serial
  | fuel + 1, some i =>
    match r.nodes[i]? with
    | some node => node.entry.toList ++ r.walk fuel node.next
    | none => []
  | _, _ => []

def toList (r : Recency) : List Serial := r.walk r.nodes.size r.head

def keys (r : Recency) (c : Contents V) : List String :=
  r.toList.filterMap fun s => (c.entry? s).map (·.key)

end Recency

end TimedCache
