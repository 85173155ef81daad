import TimedCache.Proofs.Cache.Worker
import TimedCache.Proofs.Recency.Generations

/-!
A cache whose worker never rests, seen one call at a time, and the plain machine that it equals: a
single list of records, most recently used first, and the reads that wait for their batch. A call
fails whose caller cannot fix a deadline. With the first such call the plain machine runs aground.
-/

namespace TimedCache

theorem Clock.advance_zero (clock : Clock) : clock.advance 0 = clock := by
  simp [advance, lapse]

/-- What is asked of a cache whose worker never rests. -/
inductive Call (V : Type) where
  | set (key : String) (value : V)
  | setFor (key : String) (value : V) (ttl : Span)
  | get (key : String)
  | status (key : String)
  | delete (key : String)
  | len
  | clear
  | flush
  | advance (ms : Nat)

/-- The milliseconds that pass with a call. -/
def Call.elapsed {V : Type} : Call V → Nat
  | .advance ms => ms
  | _ => 0

inductive Answer (V : Type) where
  | done
  | accepted (accepted : Bool)
  | value (value : Option V)
  | shown (value : Option V) (status : Status)
  | count (n : Nat) (empty : Bool)

/-- What can be told of a call once the worker is idle again: the answer or the failure, the
callbacks, the keys from the most to the least recently used, and how many there are. -/
structure Outcome (V : Type) where
  answer : Except Overflow (Answer V)
  events : List (Event V)
  keys : List String
  size : Nat

/-- The same but for the order of the callbacks, of which only the passing of time runs several. -/
structure Outcome.Agrees {V : Type} (a b : Outcome V) : Prop where
  answer : a.answer = b.answer
  events : a.events.Perm b.events
  keys : a.keys = b.keys
  size : a.size = b.size

namespace Cache

variable {V : Type}

/-- Answers a call, unless its caller cannot fix a deadline. -/
def request (c : Cache V) : Call V → Except Overflow (Answer V × Cache V)
  | .set key value => (c.trySet key value).map fun (accepted, c) => (.accepted accepted, c)
  | .setFor key value ttl =>
    (c.trySetFor key value ttl).map fun (accepted, c) => (.accepted accepted, c)
  | .get key => let (value, c) := c.get key; .ok (.value value, c)
  | .status key => let ((value, status), c) := c.getWithStatus key; .ok (.shown value status, c)
  | .delete key => (c.tryDelete key).map fun c => (.done, c)
  | .len => .ok (.count c.size c.isEmpty, c)
  | .clear => .ok (.done, c.clear)
  | .flush => .ok (.done, c.flush)
  | .advance ms => .ok (.done, c.advance ms)

/-- What a call leaves behind that fails. -/
def abandoned (c : Cache V) : Call V → Cache V
  | .set key value => c.strandSet key value c.options.defaultTtl
  | .setFor key value ttl => c.strandSet key value ttl
  | .delete key => c.strandDelete key
  | _ => c

/-- Answers a call, or fails, until the worker is idle. -/
def respond (c : Cache V) (call : Call V) : Except Overflow (Answer V) × Cache V :=
  match c.request call with
  | .ok (answer, c') => (.ok answer, c'.settle)
  | .error cause => (.error cause, (c.abandoned call).settle)

/-- One call with a fresh log. -/
def call (c : Cache V) (call : Call V) : Except Overflow (Answer V) × Cache V :=
  ({ c with log := #[] } : Cache V).respond call

def callAll (c : Cache V) (calls : List (Call V)) : Cache V :=
  calls.foldl (fun c call => (c.call call).2) c

/-- What is told of a call when it is over. -/
def outcome (c : Cache V) (answer : Except Overflow (Answer V)) : Outcome V :=
  { answer
    events := c.log.toList
    keys := c.recency.keys c.contents
    size := c.size }

def outcomes (c : Cache V) : List (Call V) → List (Outcome V)
  | [] => []
  | call :: rest => (c.call call).2.outcome (c.call call).1 :: (c.call call).2.outcomes rest

/-- How often a place of the arena is freed in a run: a call frees it once at most. -/
def timesFreed (c : Cache V) (i : Nat) : List (Call V) → Nat
  | [] => 0
  | call :: rest =>
    (Recency.regenerated c.recency (c.call call).2.recency i).toNat +
      (c.call call).2.timesFreed i rest

theorem timesFreed_le (c : Cache V) (i : Nat) (calls : List (Call V)) :
    c.timesFreed i calls ≤ calls.length := by
  induction calls generalizing c with
  | nil => exact Nat.le_refl _
  | cons call rest ih =>
    unfold timesFreed
    rw [List.length_cons]
    have hrest := ih (c.call call).2
    have hone := Bool.toNat_le (Recency.regenerated c.recency (c.call call).2.recency i)
    omega

end Cache

/-- A record of the plain machine. Its number tells it from others that had the same key. -/
structure Record (V : Type) where
  serial : Serial
  key : String
  value : V
  stamp : Option Nat

structure Reference (V : Type) where
  clock : Clock
  /-- The most recently used first. -/
  records : List (Record V) := []
  /-- The reads that wait for their batch. -/
  pending : List Serial := []
  created : Nat := 0

namespace Record

variable {V : Type}

def statusAt (r : Record V) (now : Nat) (delay : Span) : Status :=
  match r.stamp with
  | none => .exist
  | some stamp =>
    if now < stamp then .exist
    else if now < satAdd stamp delay.millis then .expired
    else .notExist

/-- Whether the record must be gone by a moment. -/
def goneBy (r : Record V) (moment : Nat) (delay : Span) : Bool :=
  r.stamp.any fun stamp => decide (satAdd stamp delay.millis ≤ moment)

/-- The callback for a record that leaves. -/
def told (r : Record V) (hook : Option Hook) (reason : Departure) : List (Event V) :=
  if hook.isSome then [.left reason r.serial r.key r.value] else []

end Record

namespace Reference

variable {V : Type}

def find? (records : List (Record V)) (key : String) : Option (Record V) :=
  records.find? fun r => r.key == key

/-- The records without one. -/
def without (records : List (Record V)) (s : Serial) : List (Record V) :=
  records.filter fun r => r.serial != s

/-- Moves a record to the front, if it is still there. -/
def touch (records : List (Record V)) (s : Serial) : List (Record V) :=
  match records.find? fun r => r.serial == s with
  | some r => r :: without records s
  | none => records

/-- Puts a read on record; a full batch is applied at once. -/
def note (o : Options V) (m : Reference V) (s : Serial) : Reference V :=
  let pending := m.pending ++ [s]
  if pending.length < max o.readBatch 1 then { m with pending }
  else { m with records := pending.foldl touch m.records, pending := [] }

def status (o : Options V) (m : Reference V) (key : String) :
    (Option V × Status) × Reference V :=
  match find? m.records key with
  | none => ((none, .notExist), m)
  | some r =>
    match r.statusAt m.clock.timestamp o.expireDelay with
    | .notExist => ((none, .notExist), m)
    | status => ((some r.value, status), m.note o r.serial)

/-- Updates the record of a key and moves it to the front, or puts a new one in front; the last
record of a full list is dropped for that. -/
def store (o : Options V) (m : Reference V) (key : String) (value : V) (ttl : Span) :
    List (Event V) × Reference V :=
  let stamp := m.clock.stampAfter ttl
  match find? m.records key with
  | some r => ([], { m with records := { r with value, stamp } :: without m.records r.serial })
  | none =>
    let record := { serial := m.created, key, value, stamp }
    if 0 < o.capacity ∧ o.capacity ≤ m.records.length then
      (m.records.getLast?.toList.flatMap (·.told o.onDelete .evicted),
        { m with records := record :: m.records.dropLast, created := m.created + 1 })
    else ([], { m with records := record :: m.records, created := m.created + 1 })

def delete (o : Options V) (m : Reference V) (key : String) : List (Event V) × Reference V :=
  match find? m.records key with
  | some r => (r.told o.onDelete .deleted, { m with records := without m.records r.serial })
  | none => ([], m)

/-- Moves the clock. When that crosses a tick, the records go that must be gone by the last tick. -/
def advance (o : Options V) (m : Reference V) (ms : Nat) : List (Event V) × Reference V :=
  let clock := m.clock.advance ms
  let tick := (max o.tick (.ofMillis 1)).millis
  if m.clock.sinceStart / tick < clock.sinceStart / tick then
    let moment := clock.timestamp - clock.sinceStart + clock.sinceStart / tick * tick
    ((m.records.filter (·.goneBy moment o.expireDelay)).flatMap (·.told o.onExpire .expired),
      { m with clock, records := m.records.filter fun r => !r.goneBy moment o.expireDelay })
  else ([], { m with clock })

/-- Whether a set can fix its deadline. -/
def setFits (o : Options V) (m : Reference V) : Bool :=
  match o.syncSetTimeout with
  | some timeout => m.clock.canAwait timeout
  | none => true

def deleteFits (o : Options V) (m : Reference V) (key : String) : Bool :=
  !o.syncDelete || (find? m.records key).isNone || m.clock.canAwait o.deleteTimeout

def setFor (o : Options V) (m : Reference V) (key : String) (value : V) (ttl : Span) :
    Except Overflow (Answer V × List (Event V) × Reference V) :=
  if m.setFits o then .ok (.accepted true, m.store o key value ttl) else .error .deadline

def step (o : Options V) (m : Reference V) :
    Call V → Except Overflow (Answer V × List (Event V) × Reference V)
  | .set key value => m.setFor o key value o.defaultTtl
  | .setFor key value ttl => m.setFor o key value ttl
  | .get key =>
    match m.status o key with
    | ((value, .exist), m) => .ok (.value value, [], m)
    | (_, m) => .ok (.value none, [], m)
  | .status key =>
    match m.status o key with
    | ((value, status), m) => .ok (.shown value status, [], m)
  | .delete key => if m.deleteFits o key then .ok (.done, m.delete o key) else .error .deadline
  | .len => .ok (.count m.records.length m.records.isEmpty, [], m)
  | .clear => .ok (.done, [], { m with records := [] })
  | .flush => .ok (.done, [], m)
  | .advance ms => .ok (.done, m.advance o ms)

theorem store_clock (o : Options V) (m : Reference V) (key : String) (value : V) (ttl : Span) :
    (m.store o key value ttl).2.clock = m.clock := by
  unfold store
  dsimp only
  split
  · rfl
  · split <;> rfl

theorem status_clock (o : Options V) (m : Reference V) (key : String) :
    (m.status o key).2.clock = m.clock := by
  have hnote (s : Serial) : (m.note o s).clock = m.clock := by
    unfold note
    dsimp only
    split <;> rfl
  unfold status
  split
  · rfl
  · split
    · rfl
    · exact hnote _

theorem setFor_clock {o : Options V} {m : Reference V} {key : String} {value : V} {ttl : Span}
    {result : Answer V × List (Event V) × Reference V}
    (h : m.setFor o key value ttl = .ok result) : result.2.2.clock = m.clock := by
  unfold setFor at h
  split at h
  · cases h
    exact store_clock o m key value ttl
  · cases h

/-- A call that is answered takes its time. -/
theorem step_clock {o : Options V} {m : Reference V} {call : Call V}
    {result : Answer V × List (Event V) × Reference V} (h : m.step o call = .ok result) :
    result.2.2.clock = m.clock.advance call.elapsed := by
  have hstays (hclock : result.2.2.clock = m.clock) : result.2.2.clock = m.clock.advance 0 :=
    hclock.trans m.clock.advance_zero.symm
  cases call with
  | set | setFor => exact hstays (setFor_clock h)
  | get key =>
    have hclock := status_clock o m key
    unfold step at h
    dsimp only at h
    generalize m.status o key = reply at hclock h
    obtain ⟨⟨value, status⟩, m'⟩ := reply
    cases status <;> cases h <;> exact hstays hclock
  | status key =>
    cases h
    exact hstays (status_clock o m key)
  | delete key =>
    have hclock : (m.delete o key).2.clock = m.clock := by
      unfold delete
      split <;> rfl
    unfold step at h
    dsimp only at h
    split at h
    · cases h
      exact hstays hclock
    · cases h
  | len | clear | flush =>
    cases h
    exact hstays rfl
  | advance ms =>
    cases h
    unfold advance
    dsimp only
    split <;> rfl

/-! ## Records by key and by number -/

variable {records : List (Record V)}

theorem find?_eq_some_iff (hkeys : (records.map (·.key)).Nodup) {key : String} {r : Record V} :
    find? records key = some r ↔ r ∈ records ∧ r.key = key := by
  unfold find?
  constructor
  · intro hfind
    exact ⟨List.mem_of_find?_eq_some hfind, by simpa using List.find?_some hfind⟩
  · rintro ⟨hr, rfl⟩
    cases hfind : records.find? fun r' => r'.key == r.key with
    | none =>
      have hnone := List.find?_eq_none.mp hfind r hr
      simp at hnone
    | some r' =>
      have hkey : r'.key = r.key := by simpa using List.find?_some hfind
      rw [List.inj_on_of_nodup_map hkeys (List.mem_of_find?_eq_some hfind) hr hkey]

theorem find?_eq_none_iff {key : String} :
    find? records key = none ↔ ∀ r ∈ records, r.key ≠ key := by
  simp [find?]

theorem mem_without {s : Serial} {r : Record V} :
    r ∈ without records s ↔ r ∈ records ∧ r.serial ≠ s := by
  simp [without]

theorem without_middle {before after : List (Record V)} {r : Record V}
    (h : ((before ++ r :: after).map (·.serial)).Nodup) :
    without (before ++ r :: after) r.serial = before ++ after := by
  rw [(List.perm_middle.map _).nodup_iff, List.map_cons, List.nodup_cons] at h
  have hkept (r' : Record V) (hr' : r' ∈ before ++ after) : (r'.serial != r.serial) = true := by
    rw [bne_iff_ne]
    intro heq
    exact h.1 (heq ▸ List.mem_map_of_mem hr')
  unfold without
  rw [List.filter_append, List.filter_cons_of_neg (by simp), ← List.filter_append]
  exact List.filter_eq_self.mpr hkept

theorem without_perm (h : (records.map (·.serial)).Nodup) {r : Record V} (hr : r ∈ records) :
    (r :: without records r.serial).Perm records := by
  obtain ⟨before, after, rfl⟩ := List.append_of_mem hr
  rw [without_middle h]
  exact List.perm_middle.symm

theorem serials_without (h : (records.map (·.serial)).Nodup) (s : Serial) :
    (without records s).map (·.serial) = (records.map (·.serial)).erase s := by
  rw [h.erase_eq_filter, List.filter_map]
  rfl

/-- Moving a record to the front keeps the records. -/
theorem touch_perm (h : (records.map (·.serial)).Nodup) (s : Serial) :
    (touch records s).Perm records := by
  unfold touch
  cases hfind : records.find? fun r => r.serial == s with
  | none => exact List.Perm.refl _
  | some r =>
    have hserial : r.serial = s := by simpa using List.find?_some hfind
    subst hserial
    exact without_perm h (List.mem_of_find?_eq_some hfind)

theorem touchAll_perm (h : (records.map (·.serial)).Nodup) (serials : List Serial) :
    (serials.foldl touch records).Perm records := by
  induction serials generalizing records with
  | nil => exact List.Perm.refl _
  | cons s rest ih =>
    have hfirst := touch_perm h s
    have hnodup := (hfirst.map (·.serial)).nodup_iff.mpr h
    exact (ih hnodup).trans hfirst

end Reference

end TimedCache
