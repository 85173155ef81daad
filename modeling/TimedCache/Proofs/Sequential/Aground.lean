import TimedCache.Proofs.Sequential.Reference

/-!
The plain machine run aground. Once a caller of a cache could not fix a deadline, no later one can,
so nothing new comes into the list any more, and nothing moves in it but for reads. What callers
leave behind, readers find, but the worker never hears of it. So there are two lists of records
from now on: what readers find, and what the worker has linked, each record with the stamp that its
timer was set for. They meet where a timer rings, and where an entry is deleted by a caller who does
not wait.
-/

namespace TimedCache

open Reference (find? touch without)

structure Aground (V : Type) where
  clock : Clock
  /-- What the worker has linked, the most recently used first. -/
  records : List (Record V)
  /-- What readers find. -/
  stored : List (Record V)
  pending : List Serial
  created : Nat

/-- The machine as it runs aground: readers find what the worker has linked. -/
def Reference.aground {V : Type} (m : Reference V) : Aground V :=
  { m with stored := m.records }

namespace Aground

variable {V : Type}

/-- Only a record that the worker has linked is put on record as read. -/
def note (o : Options V) (m : Aground V) (s : Serial) : Aground V :=
  if s ∈ m.records.map (·.serial) then
    let pending := m.pending ++ [s]
    if pending.length < max o.readBatch 1 then { m with pending }
    else { m with records := pending.foldl touch m.records, pending := [] }
  else m

def status (o : Options V) (m : Aground V) (key : String) : (Option V × Status) × Aground V :=
  match find? m.stored key with
  | none => ((none, .notExist), m)
  | some r =>
    match r.statusAt m.clock.timestamp o.expireDelay with
    | .notExist => ((none, .notExist), m)
    | status => ((some r.value, status), m.note o r.serial)

/-- What a set leaves behind. Its caller cannot fix the deadline. -/
def store (m : Aground V) (key : String) (value : V) (ttl : Span) : Aground V :=
  let stamp := m.clock.stampAfter ttl
  match find? m.stored key with
  | some r => { m with stored := { r with value, stamp } :: without m.stored r.serial }
  | none =>
    { m with
      stored := { serial := m.created, key, value, stamp } :: m.stored, created := m.created + 1 }

/-- A caller who waits for a deletion cannot fix the deadline; one who does not has it done. -/
def delete (o : Options V) (m : Aground V) (key : String) :
    Except Overflow (Answer V) × List (Event V) × Aground V :=
  match find? m.stored key with
  | none => (.ok .done, [], m)
  | some r =>
    let m := { m with stored := without m.stored r.serial }
    if o.syncDelete then (.error .deadline, [], m)
    else
      (.ok .done, r.told o.onDelete .deleted,
        { m with records := without m.records r.serial })

/-- What becomes of a linked record as its timer rings. It goes if readers find it and it must be
gone by now. If they find it with an end that is to come, the timer is set for that; else there is
none any more. -/
def afterwards (o : Options V) (m : Aground V) (r : Record V) : Option (Record V) :=
  match m.stored.find? fun found => found.serial == r.serial with
  | none => some { r with stamp := none }
  | some found =>
    if found.goneBy m.clock.timestamp o.expireDelay then none
    else some { r with stamp := found.stamp }

/-- Whether a record that readers find goes as some timers ring. -/
def lapses (o : Options V) (m : Aground V) (rings : Record V → Bool) (found : Record V) : Bool :=
  found.goneBy m.clock.timestamp o.expireDelay &&
    m.records.any fun r => r.serial == found.serial && rings r

/-- The timers of some linked records ring. -/
def ring (o : Options V) (m : Aground V) (rings : Record V → Bool) : List (Event V) × Aground V :=
  ((m.stored.filter (m.lapses o rings)).flatMap (·.told o.onExpire .expired),
    { m with
      stored := m.stored.filter fun found => !m.lapses o rings found
      records := m.records.filterMap fun r => if rings r then m.afterwards o r else some r })

/-- Moves the clock. When that crosses a tick, the timers ring that were set for an end up to the
last tick. -/
def advance (o : Options V) (m : Aground V) (ms : Nat) : List (Event V) × Aground V :=
  let clock := m.clock.advance ms
  let tick := (max o.tick (.ofMillis 1)).millis
  if m.clock.sinceStart / tick < clock.sinceStart / tick then
    let moment := clock.timestamp - clock.sinceStart + clock.sinceStart / tick * tick
    ring o { m with clock } fun r => r.goneBy moment o.expireDelay
  else ([], { m with clock })

def step (o : Options V) (m : Aground V) :
    Call V → Except Overflow (Answer V) × List (Event V) × Aground V
  | .set key value => (.error .deadline, [], m.store key value o.defaultTtl)
  | .setFor key value ttl => (.error .deadline, [], m.store key value ttl)
  | .get key =>
    match m.status o key with
    | ((value, .exist), m) => (.ok (.value value), [], m)
    | (_, m) => (.ok (.value none), [], m)
  | .status key =>
    let ((value, status), m) := m.status o key
    (.ok (.shown value status), [], m)
  | .delete key => m.delete o key
  | .len => (.ok (.count m.stored.length m.stored.isEmpty), [], m)
  | .clear => (.ok .done, [], { m with records := [], stored := [] })
  | .flush => (.ok .done, [], m)
  | .advance ms =>
    let (events, m) := m.advance o ms
    (.ok .done, events, m)

def outcomes (o : Options V) (m : Aground V) : List (Call V) → List (Outcome V)
  | [] => []
  | call :: rest =>
    let (answer, events, m') := m.step o call
    { answer, events, keys := m'.records.map (·.key), size := m'.stored.length } ::
      m'.outcomes o rest

theorem note_clock (o : Options V) (m : Aground V) (s : Serial) :
    (m.note o s).clock = m.clock := by
  unfold note
  dsimp only
  split
  · split <;> rfl
  · rfl

theorem status_clock (o : Options V) (m : Aground V) (key : String) :
    (m.status o key).2.clock = m.clock := by
  unfold status
  split
  · rfl
  · split
    · rfl
    · exact m.note_clock o _

theorem step_clock (o : Options V) (m : Aground V) (call : Call V) :
    (m.step o call).2.2.clock = m.clock.advance call.elapsed := by
  have hstays {m' : Aground V} (hclock : m'.clock = m.clock) : m'.clock = m.clock.advance 0 :=
    hclock.trans m.clock.advance_zero.symm
  have hstore (key : String) (value : V) (ttl : Span) : (m.store key value ttl).clock = m.clock := by
    unfold store
    dsimp only
    split <;> rfl
  cases call with
  | set | setFor => exact hstays (hstore ..)
  | get key =>
    have hclock := m.status_clock o key
    unfold step
    dsimp only
    generalize m.status o key = reply at hclock
    obtain ⟨⟨value, status⟩, m'⟩ := reply
    cases status <;> exact hstays hclock
  | status key => exact hstays (m.status_clock o key)
  | delete key =>
    apply hstays
    unfold step delete
    dsimp only
    split
    · rfl
    · split <;> rfl
  | len | clear | flush => exact hstays rfl
  | advance ms =>
    unfold step advance
    dsimp only
    split <;> rfl

/-! ## Timers that ring -/

variable {o : Options V} {m : Aground V} {p q : Record V → Bool}

theorem lapses_eq_true {found : Record V} :
    m.lapses o p found = true ↔ found.goneBy m.clock.timestamp o.expireDelay = true ∧
      ∃ r ∈ m.records, r.serial = found.serial ∧ p r = true := by
  simp [lapses]

theorem ring_congr (h : ∀ r ∈ m.records, p r = q r) : m.ring o p = m.ring o q := by
  have hlapses : m.lapses o p = m.lapses o q := by
    funext found
    rw [Bool.eq_iff_iff, lapses_eq_true, lapses_eq_true]
    refine and_congr_right fun _ => exists_congr fun r => and_congr_right fun hr => ?_
    rw [h r hr]
  unfold ring
  rw [hlapses, List.filterMap_congr fun r hr => by rw [h r hr]]

theorem ring_none : m.ring o (fun _ => false) = ([], m) := by
  have hlapses (found : Record V) : m.lapses o (fun _ => false) found = false := by
    simp [lapses]
  simp [ring, hlapses]

theorem lapses_or (found : Record V) :
    m.lapses o (fun r => p r || q r) found = (m.lapses o p found || m.lapses o q found) := by
  rw [Bool.eq_iff_iff, Bool.or_eq_true, lapses_eq_true, lapses_eq_true, lapses_eq_true]
  simp only [Bool.or_eq_true, ← and_or_left, ← exists_or]

theorem eq_of_afterwards {r r' : Record V} (h : m.afterwards o r = some r') :
    ∃ stamp, r' = { r with stamp } := by
  unfold afterwards at h
  split at h
  · exact ⟨none, (Option.some.inj h).symm⟩
  · split at h
    · cases h
    · exact ⟨_, (Option.some.inj h).symm⟩

/-- Other timers do not matter for a timer that rings after them. -/
theorem lapses_ring (hpq : ∀ (r : Record V) stamp, p r = true → q { r with stamp } = false)
    (found : Record V) : (m.ring o p).2.lapses o q found = m.lapses o q found := by
  unfold lapses ring
  dsimp only
  congr 1
  rw [List.any_filterMap]
  refine List.any_congr rfl fun r => ?_
  cases hp : p r with
  | false => rfl
  | true =>
    have hq : q r = false := hpq r r.stamp hp
    rw [if_pos rfl, hq, Bool.and_false]
    cases hafter : m.afterwards o r with
    | none => rfl
    | some r' =>
      obtain ⟨stamp, rfl⟩ := eq_of_afterwards hafter
      dsimp only
      rw [hpq r stamp hp, Bool.and_false]

theorem afterwards_ring (hserials : (m.records.map (·.serial)).Nodup) {r : Record V}
    (hr : r ∈ m.records) (hp : p r = false) :
    (m.ring o p).2.afterwards o r = m.afterwards o r := by
  have hfound : (m.ring o p).2.stored.find? (fun found => found.serial == r.serial) =
      m.stored.find? fun found => found.serial == r.serial := by
    unfold ring
    rw [List.find?_filter]
    congr 1
    funext found
    cases hsame : found.serial == r.serial with
    | false => simp
    | true =>
      have hkept : m.lapses o p found = false := by
        rw [Bool.eq_false_iff, ne_eq, lapses_eq_true]
        rintro ⟨_, r', hr', hserial, hp'⟩
        rw [List.inj_on_of_nodup_map hserials hr' hr (hserial.trans (eq_of_beq hsame)), hp] at hp'
        cases hp'
      simp [hkept]
  unfold afterwards
  rw [hfound]
  rfl

/-- When the timers of some records ring, and then those of others, all of them have rung. -/
theorem ring_ring (hserials : (m.records.map (·.serial)).Nodup)
    (hpq : ∀ (r : Record V) stamp, p r = true → q { r with stamp } = false) :
    ((m.ring o p).2.ring o q).2 = (m.ring o fun r => p r || q r).2 ∧
      ((m.ring o p).1 ++ ((m.ring o p).2.ring o q).1).Perm (m.ring o fun r => p r || q r).1 := by
  have hstored : (m.stored.filter fun found => !m.lapses o p found).filter
      (fun found => !(m.ring o p).2.lapses o q found) =
        m.stored.filter fun found => !m.lapses o (fun r => p r || q r) found := by
    rw [List.filter_filter]
    refine List.filter_congr fun found _ => ?_
    rw [lapses_ring hpq, lapses_or, Bool.not_or, Bool.and_comm]
  have hrecords : (m.records.filterMap fun r => if p r then m.afterwards o r else some r).filterMap
      (fun r => if q r then (m.ring o p).2.afterwards o r else some r) =
        m.records.filterMap fun r => if p r || q r then m.afterwards o r else some r := by
    rw [List.filterMap_filterMap]
    refine List.filterMap_congr fun r hr => ?_
    cases hp : p r with
    | false =>
      rw [if_neg Bool.false_ne_true, Option.bind_some, Bool.false_or, afterwards_ring hserials hr hp]
    | true =>
      rw [if_pos rfl, Bool.true_or, if_pos rfl]
      cases hafter : m.afterwards o r with
      | none => rfl
      | some r' =>
        obtain ⟨stamp, rfl⟩ := eq_of_afterwards hafter
        rw [Option.bind_some, hpq r stamp hp, if_neg Bool.false_ne_true]
  constructor
  · unfold ring at hstored hrecords ⊢
    dsimp only at hstored hrecords ⊢
    rw [hstored, hrecords]
  · have hevents : (m.stored.filter (m.lapses o p) ++ (m.stored.filter fun found =>
        !m.lapses o p found).filter ((m.ring o p).2.lapses o q)).Perm
          (m.stored.filter (m.lapses o fun r => p r || q r)) := by
      refine List.Perm.trans ?_ (List.filter_append_perm (m.lapses o p) _)
      rw [List.filter_filter, List.filter_filter, List.filter_filter]
      refine List.Perm.of_eq (congrArg₂ (· ++ ·) ?_ ?_) <;> refine List.filter_congr fun found _ => ?_
      · rw [lapses_or]
        cases m.lapses o p found <;> rfl
      · rw [lapses_or, lapses_ring hpq]
        cases m.lapses o p found <;> simp
    have htold := hevents.flatMap_right (·.told o.onExpire .expired)
    rw [List.flatMap_append] at htold
    exact htold

/-! ### The timer of one record -/

variable {r : Record V}

theorem afterwards_of_found (hserials : (m.stored.map (·.serial)).Nodup) {found : Record V}
    (hfound : found ∈ m.stored) (hserial : found.serial = r.serial) :
    m.afterwards o r =
      if found.goneBy m.clock.timestamp o.expireDelay then none
      else some { r with stamp := found.stamp } := by
  unfold afterwards
  cases hfind : m.stored.find? fun found => found.serial == r.serial with
  | none =>
    have hnone := List.find?_eq_none.mp hfind found hfound
    simp [hserial] at hnone
  | some other =>
    have heq : other.serial = r.serial := by simpa using List.find?_some hfind
    rw [List.inj_on_of_nodup_map hserials (List.mem_of_find?_eq_some hfind) hfound
      (heq.trans hserial.symm)]

theorem afterwards_of_lost (h : ∀ found ∈ m.stored, found.serial ≠ r.serial) :
    m.afterwards o r = some { r with stamp := none } := by
  unfold afterwards
  rw [List.find?_eq_none.mpr fun found hfound => by simpa using h found hfound]

theorem lapses_own (hkeyed : (m.records.map (·.key)).Nodup) (hr : r ∈ m.records)
    {found : Record V} :
    m.lapses o (fun other => decide (other.key = r.key)) found = true ↔
      found.goneBy m.clock.timestamp o.expireDelay = true ∧ found.serial = r.serial := by
  rw [lapses_eq_true]
  refine and_congr_right fun _ => ⟨?_, fun hserial => ⟨r, hr, hserial.symm, decide_eq_true rfl⟩⟩
  rintro ⟨other, hother, hserial, hsame⟩
  rw [List.inj_on_of_nodup_map hkeyed hother hr (of_decide_eq_true hsame)] at hserial
  exact hserial.symm

/-- The timer rings of a record that readers find and that must be gone. -/
theorem ring_own_of_gone (hkeyed : (m.records.map (·.key)).Nodup)
    (hsame : ∀ other ∈ m.records, other.serial = r.serial ↔ other.key = r.key)
    (hr : r ∈ m.records) (hserials : (m.stored.map (·.serial)).Nodup) {found : Record V}
    (hfound : found ∈ m.stored) (hserial : found.serial = r.serial)
    (hgone : found.goneBy m.clock.timestamp o.expireDelay = true) :
    m.ring o (fun other => decide (other.key = r.key)) =
      (found.told o.onExpire .expired,
        { m with
          stored := without m.stored found.serial, records := without m.records r.serial }) := by
  have hlapses (other : Record V) (hother : other ∈ m.stored) :
      m.lapses o (fun other => decide (other.key = r.key)) other = (other.serial == found.serial) := by
    rw [Bool.eq_iff_iff, lapses_own hkeyed hr, beq_iff_eq, hserial]
    refine and_iff_right_of_imp fun heq => ?_
    rw [List.inj_on_of_nodup_map hserials hother hfound (heq.trans hserial.symm)]
    exact hgone
  have hone : m.stored.filter (fun other => other.serial == found.serial) = [found] := by
    rw [← List.perm_singleton]
    have hperm := (Reference.without_perm hserials hfound).filter (·.serial == found.serial)
    rw [List.filter_cons_of_pos (by simp), without, List.filter_filter,
      List.filter_eq_nil_iff.mpr (by simp)] at hperm
    exact hperm.symm
  have hafter : m.afterwards o r = none := by
    rw [afterwards_of_found hserials hfound hserial, if_pos hgone]
  have hrecords : (m.records.filterMap fun other =>
      if decide (other.key = r.key) then m.afterwards o other else some other) =
        without m.records r.serial := by
    rw [without, ← List.filterMap_eq_filter]
    refine List.filterMap_congr fun other hother => ?_
    unfold Option.guard
    by_cases heq : other.key = r.key
    · rw [List.inj_on_of_nodup_map hkeyed hother hr heq, hafter]
      simp
    · have hne := mt (hsame other hother).mp heq
      simp [heq, hne]
  unfold ring
  rw [hrecords, List.filter_congr hlapses, hone,
    List.filter_congr fun other hother => congrArg (! ·) (hlapses other hother)]
  simp only [List.flatMap_cons, List.flatMap_nil, List.append_nil]
  rfl

/-- The timer rings of a record that readers do not find, or that need not be gone. -/
theorem ring_own_of_left (hkeyed : (m.records.map (·.key)).Nodup) (hr : r ∈ m.records)
    {stamp : Option Nat} (hafter : m.afterwards o r = some { r with stamp })
    (hleft : ∀ found ∈ m.stored, found.serial = r.serial →
      found.goneBy m.clock.timestamp o.expireDelay = false) :
    m.ring o (fun other => decide (other.key = r.key)) =
      ([], { m with
        records := m.records.map fun other =>
          if other.key = r.key then { other with stamp } else other }) := by
  have hlapses (found : Record V) (hfound : found ∈ m.stored) :
      m.lapses o (fun other => decide (other.key = r.key)) found = false := by
    rw [Bool.eq_false_iff, ne_eq, lapses_own hkeyed hr]
    rintro ⟨hgone, hserial⟩
    rw [hleft found hfound hserial] at hgone
    cases hgone
  have hrecords : (m.records.filterMap fun other =>
      if decide (other.key = r.key) then m.afterwards o other else some other) =
        m.records.map fun other => if other.key = r.key then { other with stamp } else other := by
    rw [← List.filterMap_eq_map]
    refine List.filterMap_congr fun other hother => ?_
    by_cases heq : other.key = r.key
    · rw [List.inj_on_of_nodup_map hkeyed hother hr heq, hafter]
      simp
    · simp [heq]
  unfold ring
  rw [hrecords, List.filter_congr hlapses,
    List.filter_congr fun found hfound => congrArg (! ·) (hlapses found hfound)]
  simp

end Aground

/-! ### While readers find what is linked -/

theorem Record.goneBy_mono {V : Type} {r : Record V} {moment now : Nat} {delay : Span}
    (h : r.goneBy moment delay = true) (hle : moment ≤ now) : r.goneBy now delay = true := by
  unfold goneBy at h ⊢
  cases hstamp : r.stamp with
  | none =>
    rw [hstamp] at h
    cases h
  | some stamp =>
    rw [hstamp, Option.any_some, decide_eq_true_iff] at h
    exact decide_eq_true (h.trans hle)

namespace Reference

variable {V : Type} {o : Options V} {m : Reference V}

theorem ring_aground (hserials : (m.records.map (·.serial)).Nodup) {rings : Record V → Bool}
    (hrings : ∀ r ∈ m.records, rings r = true →
      r.goneBy m.clock.timestamp o.expireDelay = true) :
    m.aground.ring o rings = ((m.records.filter rings).flatMap (·.told o.onExpire .expired),
      ({ m with records := m.records.filter fun r => !rings r } : Reference V).aground) := by
  have hlapses (r : Record V) (hr : r ∈ m.records) : m.aground.lapses o rings r = rings r := by
    rw [Bool.eq_iff_iff, Aground.lapses_eq_true]
    constructor
    · rintro ⟨_, r', hr', hserial, hrung⟩
      rw [← List.inj_on_of_nodup_map hserials hr' hr hserial]
      exact hrung
    · intro hrung
      exact ⟨hrings r hr hrung, r, hr, rfl, hrung⟩
  have hrecords : (m.records.filterMap fun r =>
      if rings r then m.aground.afterwards o r else some r) = m.records.filter fun r => !rings r := by
    rw [← List.filterMap_eq_filter]
    refine List.filterMap_congr fun r hr => ?_
    unfold Option.guard
    cases hrung : rings r with
    | false => simp [hrung]
    | true =>
      have hgone : r.goneBy m.aground.clock.timestamp o.expireDelay = true := hrings r hr hrung
      rw [if_pos rfl, Aground.afterwards_of_found (m := m.aground) hserials hr rfl, if_pos hgone]
      simp [hrung]
  unfold Aground.ring
  dsimp only [aground] at hlapses hrecords ⊢
  rw [hrecords, List.filter_congr hlapses,
    List.filter_congr fun r hr => congrArg (! ·) (hlapses r hr)]

theorem note_aground {r : Record V} (hr : r ∈ m.records) :
    m.aground.note o r.serial = { (m.note o r.serial).aground with stored := m.records } := by
  have hlinked : r.serial ∈ m.aground.records.map (·.serial) := List.mem_map_of_mem hr
  unfold Aground.note note
  rw [if_pos hlinked]
  dsimp only [aground]
  split <;> rfl

/-- A read changes the order of use, which readers do not see. -/
theorem status_aground (key : String) :
    m.aground.status o key =
      ((m.status o key).1, { (m.status o key).2.aground with stored := m.records }) := by
  unfold Aground.status status
  dsimp only [aground]
  cases hfind : find? m.records key with
  | none => rfl
  | some r =>
    dsimp only
    cases r.statusAt m.clock.timestamp o.expireDelay with
    | notExist => rfl
    | exist | expired => exact Prod.ext rfl (note_aground (List.mem_of_find?_eq_some hfind))

theorem status_perm (hserials : (m.records.map (·.serial)).Nodup) (key : String) :
    (m.status o key).2.records.Perm m.records := by
  have hnote (s : Serial) : (m.note o s).records.Perm m.records := by
    unfold note
    dsimp only
    split
    · exact .refl _
    · exact touchAll_perm hserials (m.pending ++ [s])
  unfold status
  split
  · exact .refl _
  · split
    · exact .refl _
    · exact hnote _

/-- In the course of time, the machine aground does as before. -/
theorem advance_aground (hserials : (m.records.map (·.serial)).Nodup) {ms : Nat}
    (hstart : (m.clock.advance ms).sinceStart ≤ (m.clock.advance ms).timestamp) :
    m.aground.advance o ms = ((m.advance o ms).1, (m.advance o ms).2.aground) := by
  have hle := Nat.div_mul_le_self (m.clock.advance ms).sinceStart (max o.tick (.ofMillis 1)).millis
  unfold Aground.advance advance
  dsimp only [aground]
  by_cases hpast : m.clock.sinceStart / (max o.tick (.ofMillis 1)).millis <
      (m.clock.advance ms).sinceStart / (max o.tick (.ofMillis 1)).millis
  · rw [if_pos hpast]
    refine (if_pos hpast).trans ?_
    refine ring_aground (m := { m with clock := m.clock.advance ms }) hserials fun r _ hgone => ?_
    refine Record.goneBy_mono hgone ?_
    dsimp only
    omega
  · rw [if_neg hpast]
    exact if_neg hpast

end Reference

/-- What is told of the calls of a run. With the first call that fails the machine runs aground. -/
def Reference.outcomes {V : Type} (o : Options V) (m : Reference V) :
    List (Call V) → List (Outcome V)
  | [] => []
  | call :: rest =>
    match m.step o call with
    | .ok (answer, events, m') =>
      { answer := .ok answer, events, keys := m'.records.map (·.key), size := m'.records.length } ::
        m'.outcomes o rest
    | .error _ => m.aground.outcomes o (call :: rest)

end TimedCache
