import Std.Data.HashMap
import TimedCache.Saturation

/-!
A hierarchical timing wheel, counted in ticks. Level `i` has `slots` buckets that each span
`slots ^ i` ticks, cut down to a word; levels are added on demand. A task is put on the lowest
level whose reach covers its distance, and whenever a bucket comes up its tasks are either due or
put back on a lower level. Cancelling a task forgets its record only: the id left in a bucket is
skipped when that bucket comes up.
-/

namespace TimedCache

abbrev TimerId := Nat

/-- What is due at a tick, and what is then handed out. -/
structure Task (α : Type) where
  deadline : Nat
  payload : α
  deriving Repr

structure Wheel (α : Type) where
  slots : Nat
  /-- Ticks passed since the start. -/
  current : Nat := 0
  /-- The ids in each bucket of each level, in the order they were put there. -/
  levels : Array (Array (Array TimerId))
  tasks : Std.HashMap TimerId (Task α) := ∅
  nextId : TimerId := 1
  two_le_slots : 2 ≤ slots

namespace Wheel

variable {α : Type}

/-- A wheel of one empty level; fewer than two slots are raised to two. -/
def withSlots (n : Nat) : Wheel α :=
  { slots := max n 2
    levels := #[Array.replicate (max n 2) #[]]
    two_le_slots := by omega }

/-- Whether there can be a table of the buckets of a level; each takes 24 bytes. -/
def fits (n : Nat) : Bool := tableFits (max n 2) 24

def allocate (n : Nat) : Except Overflow (Wheel α) :=
  if fits n then .ok (withSlots n) else .error .tableSize

/-- Ticks covered by one bucket of a level. With two slots or more, 64 levels fill a word. -/
def span (slots level : Nat) : Nat := satPow slots (min level 64)

theorem span_eq_clampWord {slots : Nat} (h : 2 ≤ slots) (level : Nat) :
    span slots level = clampWord (slots.pow level) := by
  unfold span
  rw [satPow_eq_clampWord]
  rcases Nat.le_total level 64 with hle | hle
  · rw [Nat.min_eq_left hle]
  · have hword : maxWord ≤ slots ^ 64 :=
      Nat.le_trans (by decide : maxWord ≤ 2 ^ 64) (Nat.pow_le_pow_left h 64)
    have hmono : slots ^ 64 ≤ slots ^ level := Nat.pow_le_pow_right (by omega) hle
    rw [Nat.min_eq_right hle]
    exact (Nat.min_eq_right hword).trans (Nat.min_eq_right (Nat.le_trans hword hmono)).symm

/-- Before the last tick, a level whose bucket does not come up has none above it whose bucket
does. -/
theorem mod_span_ne_zero_of_le {slots current level upper : Nat} (hslots : 2 ≤ slots)
    (hpos : 0 < current) (hlast : current < maxWord) (hle : level ≤ upper)
    (h : current % span slots level ≠ 0) : current % span slots upper ≠ 0 := by
  rw [span_eq_clampWord hslots, Nat.pow_eq] at h ⊢
  rcases Nat.le_total (slots ^ upper) maxWord with hword | hword
  · have hdvd : slots ^ level ∣ slots ^ upper := Nat.pow_dvd_pow slots hle
    have hlower : slots ^ level ≤ maxWord :=
      Nat.le_trans (Nat.pow_le_pow_right (by omega) hle) hword
    rw [clampWord_of_le hword]
    rw [clampWord_of_le hlower] at h
    intro hzero
    exact h (Nat.mod_eq_zero_of_dvd (Nat.dvd_trans hdvd (Nat.dvd_of_mod_eq_zero hzero)))
  · have hclamp : clampWord (slots ^ upper) = maxWord := Nat.min_eq_right hword
    rw [hclamp, Nat.mod_eq_of_lt hlast]
    omega

/-- The lowest level from `level` on, within `fuel` more, whose buckets together reach `delta`
ticks ahead. A span that is already the greatest word reaches everything. -/
def levelFrom (slots delta : Nat) : Nat → Nat → Nat
  | 0, level => level
  | fuel + 1, level =>
    if span slots level < maxWord ∧ span slots (level + 1) ≤ delta then
      levelFrom slots delta fuel (level + 1)
    else
      level

def levelFor (slots delta : Nat) : Nat := levelFrom slots delta 64 0

/-- The bucket of a level that comes up last before a deadline. -/
def bucketFor (slots level deadline : Nat) : Nat := deadline / span slots level % slots

def emptyLevel (slots : Nat) : Array (Array TimerId) := Array.replicate slots #[]

def growTo (w : Wheel α) (n : Nat) : Wheel α :=
  { w with levels := w.levels ++ Array.replicate (n - w.levels.size) (emptyLevel w.slots) }

def place (w : Wheel α) (id : TimerId) (deadline : Nat) : Wheel α :=
  let level := levelFor w.slots (max (deadline - w.current) 1)
  let bucket := bucketFor w.slots level deadline
  let w := w.growTo (level + 1)
  { w with levels := w.levels.modify level (·.modify bucket (·.push id)) }

def atLastTick (w : Wheel α) : Bool := decide (maxWord ≤ w.current)

/-- Adds a task to a wheel that has a next tick. The current tick has been served already, so the
task is due on the next one at the earliest. -/
def add (w : Wheel α) (deadline : Nat) (payload : α) : TimerId × Wheel α :=
  let id := w.nextId
  let deadline := max deadline (w.current + 1)
  let w := { w with nextId := id + 1, tasks := w.tasks.insert id { deadline, payload } }
  (id, w.place id deadline)

def insert (w : Wheel α) (deadline : Nat) (payload : α) : Except Overflow (TimerId × Wheel α) :=
  if w.atLastTick then .error .lastTick else .ok (w.add deadline payload)

def cancel (w : Wheel α) (id : TimerId) : Bool × Wheel α :=
  (w.tasks.contains id, { w with tasks := w.tasks.erase id })

/-! ## Advancing -/

/-- Tasks handed out, in the order they became due. -/
abbrev Due (α : Type) := Array (TimerId × α)

def bucket (w : Wheel α) (level i : Nat) : Array TimerId :=
  ((w.levels[level]?).bind (·[i]?)).getD #[]

def emptyBucket (w : Wheel α) (level i : Nat) : Wheel α :=
  { w with levels := w.levels.modify level (·.modify i fun _ => #[]) }

/-- Looks at an id whose bucket came up: a due task is handed out, a later one is put back, and
the id of a cancelled one is forgotten. -/
def settle (w : Wheel α) (due : Due α) (id : TimerId) : Wheel α × Due α :=
  match w.tasks[id]? with
  | none => (w, due)
  | some task =>
    if task.deadline ≤ w.current then
      ({ w with tasks := w.tasks.erase id }, due.push (id, task.payload))
    else
      (w.place id task.deadline, due)

def serve (w : Wheel α) (due : Due α) (level : Nat) : Wheel α × Due α :=
  if w.current % span w.slots level = 0 then
    let i := bucketFor w.slots level w.current
    let ids := w.bucket level i
    ids.foldl (fun (w, due) id => w.settle due id) (w.emptyBucket level i, due)
  else
    (w, due)

def serveBelow (w : Wheel α) (due : Due α) : Nat → Wheel α × Due α
  | 0 => (w, due)
  | level + 1 =>
    let (w, due) := w.serve due level
    serveBelow w due level

/-- The levels from `level` on, within `more` of them, that are worth a look at a tick: before the
last tick, the first level whose bucket does not come up ends them. -/
def reach (slots current : Nat) : Nat → Nat → Nat
  | 0, level => level
  | more + 1, level =>
    if current < maxWord ∧ current % span slots level ≠ 0 then level
    else reach slots current more (level + 1)

def tick (w : Wheel α) (due : Due α) : Wheel α × Due α :=
  let current := w.current + 1
  { w with current }.serveBelow due (reach w.slots current w.levels.size 0)

theorem serveBelow_reach (w : Wheel α) (due : Due α) (hpos : 0 < w.current) (more level : Nat) :
    w.serveBelow due (reach w.slots w.current more level) = w.serveBelow due (level + more) := by
  induction more generalizing level with
  | zero => rfl
  | succ more ih =>
    unfold reach
    split
    · rename_i idle
      have skip (extra : Nat) : w.serveBelow due (level + extra) = w.serveBelow due level := by
        induction extra with
        | zero => rfl
        | succ extra step =>
          have hidle := mod_span_ne_zero_of_le w.two_le_slots hpos idle.1
            (Nat.le_add_right level extra) idle.2
          rw [← Nat.add_assoc, serveBelow, serve, if_neg hidle]
          exact step
      exact (skip (more + 1)).symm
    · rw [ih, Nat.add_right_comm, Nat.add_assoc]

/-- A tick serves every level. -/
theorem tick_eq_serveBelow (w : Wheel α) (due : Due α) :
    w.tick due = { w with current := w.current + 1 }.serveBelow due w.levels.size := by
  have h := serveBelow_reach { w with current := w.current + 1 } due (Nat.succ_pos _)
    w.levels.size 0
  rw [Nat.zero_add] at h
  exact h

/-- One tick by itself; the last tick has no next one. -/
def step (w : Wheel α) : Except Overflow (List (TimerId × α) × Wheel α) :=
  if w.atLastTick then .error .lastTick
  else
    let (w, due) := w.tick #[]
    .ok (due.toList, w)

def ticks (w : Wheel α) (due : Due α) : Nat → Wheel α × Due α
  | 0 => (w, due)
  | n + 1 =>
    let (w, due) := w.tick due
    ticks w due n

/-- Empties every bucket; the records stay. -/
def clearBuckets (w : Wheel α) : Wheel α :=
  { w with levels := w.levels.map (·.map fun _ => #[]) }

/-- Moves forward to a tick and hands out what became due. Without pending tasks every id in a
bucket is stale, so the wheel skips ahead. -/
def advanceTo (w : Wheel α) (target : Nat) : List (TimerId × α) × Wheel α :=
  if w.tasks.isEmpty then
    ([], { w.clearBuckets with current := max w.current target })
  else
    let (w, due) := w.ticks #[] (target - w.current)
    (due.toList, w)

def clear (w : Wheel α) : Wheel α := { w.clearBuckets with tasks := ∅ }

/-! ## Views -/

def pending (w : Wheel α) : Nat := w.tasks.size

/-- Ticks covered by one bucket of the level with a number; of the number only the lowest 32 bits
count. -/
def spanOfLevel (w : Wheel α) (number : Nat) : Nat := span w.slots (number % UInt32.size)

def deadlines (w : Wheel α) : List (TimerId × Nat) :=
  (w.tasks.toList.map fun (id, task) => (id, task.deadline)).mergeSort fun a b => a.1 ≤ b.1

/-- The ids in each non-empty bucket, with the level and the bucket's place on it. -/
def placements (w : Wheel α) : List (Nat × Nat × List TimerId) :=
  w.levels.toList.zipIdx.flatMap fun (buckets, level) =>
    buckets.toList.zipIdx.filterMap fun (ids, i) =>
      if ids.isEmpty then none else some (level, i, ids.toList)

end Wheel

end TimedCache
