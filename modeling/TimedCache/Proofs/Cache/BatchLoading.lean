import TimedCache.Proofs.Cache.Loading

/-!
Loading what is missing of many keys at once. Each key is looked up, and the loader is asked once
for all those without a live value, in order and as often as they were asked for. What it answers is
stored pair by pair without waiting: the operations are queued while there is room, and a pair that
finds none is refused, though a key that had a slot shows the new value all the same.
-/

namespace TimedCache

namespace Cache

variable {V : Type} {c : Cache V} {key : String}

/-! ## Looking up -/

/-- Looking up depends neither on the notes of reads nor on the counters. -/
theorem get_congr (c : Cache V) (reads : ReadTracker) (counters : Counters) (key : String) :
    (({ c with reads, counters } : Cache V).get key).1 = (c.get key).1 := by
  rw [get_fst, get_fst]

theorem get_frame (c : Cache V) (key : String) :
    ∃ reads counters, (c.get key).2 = { c with reads, counters } := by
  rw [System.get_snd]
  exact c.getWithStatus_frame key

theorem getMany_cons (c : Cache V) (key : String) (rest : List String) :
    c.getMany (key :: rest) =
      match (c.get key).1 with
      | some value =>
        ((((c.get key).2.getMany rest).1.1.insert key (some value),
          ((c.get key).2.getMany rest).1.2), ((c.get key).2.getMany rest).2)
      | none =>
        ((((c.get key).2.getMany rest).1.1, key :: ((c.get key).2.getMany rest).1.2),
          ((c.get key).2.getMany rest).2) := rfl

/-- What looking up many keys comes down to. -/
theorem getMany_spec (c : Cache V) (keys : List String) :
    (∃ reads counters, (c.getMany keys).2 = { c with reads, counters }) ∧
      (c.getMany keys).1.2 = keys.filter (fun key => (c.get key).1.isNone) ∧
      ∀ key, (c.getMany keys).1.1[key]? = if key ∈ keys then (c.get key).1.map some else none := by
  induction keys generalizing c with
  | nil => exact ⟨⟨c.reads, c.counters, rfl⟩, rfl, fun key => by simp [getMany]⟩
  | cons first rest ih =>
    obtain ⟨reads, counters, hframe⟩ := c.get_frame first
    obtain ⟨⟨reads', counters', hrest⟩, hmissing, hfound⟩ := ih (c.get first).2
    have hsame (key : String) : ((c.get first).2.get key).1 = (c.get key).1 := by
      rw [hframe, get_congr]
    simp only [hsame] at hmissing hfound
    rw [hframe] at hrest
    rw [getMany_cons, hframe]
    rw [hframe] at hmissing hfound
    cases hvalue : (c.get first).1 with
    | some value =>
      refine ⟨⟨reads', counters', hrest⟩, ?_, ?_⟩
      · rw [List.filter_cons_of_neg (by simp [hvalue])]
        exact hmissing
      · intro key
        rw [Std.HashMap.getElem?_insert, hfound]
        by_cases heq : first = key
        · simp [← heq, hvalue]
        · simp [heq, Ne.symm heq]
    | none =>
      refine ⟨⟨reads', counters', hrest⟩, ?_, ?_⟩
      · rw [List.filter_cons_of_pos (by simp [hvalue])]
        exact congrArg (first :: ·) hmissing
      · intro key
        rw [hfound]
        by_cases heq : first = key
        · simp [← heq, hvalue]
        · simp [Ne.symm heq]

/-- Answers for some keys, put into a map one after the other. -/
theorem getElem?_foldl_insert (answers : String → Option V) (keys : List String)
    (found : Std.HashMap String (Option V)) (key : String) :
    (keys.foldl (fun found key => found.insert key (answers key)) found)[key]? =
      if key ∈ keys then some (answers key) else found[key]? := by
  induction keys generalizing found with
  | nil => rfl
  | cons first rest ih =>
    rw [List.foldl_cons, ih, Std.HashMap.getElem?_insert]
    by_cases heq : first = key
    · simp [heq]
    · simp [heq, Ne.symm heq]

/-- What is found first stays, and the rest is what was loaded. -/
theorem getElem?_answer (c : Cache V) (keys : List String) (loaded : Std.HashMap String V)
    (key : String) :
    ((c.getMany keys).1.2.foldl (fun found key => found.insert key loaded[key]?)
        (c.getMany keys).1.1)[key]? =
      if key ∈ keys then some ((c.get key).1 <|> loaded[key]?) else none := by
  obtain ⟨_, hmissing, hfound⟩ := c.getMany_spec keys
  rw [getElem?_foldl_insert, hmissing, hfound]
  simp only [List.mem_filter]
  by_cases hmem : key ∈ keys
  · cases (c.get key).1 <;> simp [hmem]
  · simp [hmem]

/-! ## Storing -/

/-- How many operations are taken from a caller who does not wait. -/
def room (c : Cache V) : Nat :=
  if c.isClosed then 0 else c.writes.capacity - c.writes.items.length

theorem accepts_iff_room (c : Cache V) : c.accepts false = true ↔ 0 < c.room := by
  have haccepts : c.accepts false = !(c.isClosed || c.writes.isFull) := by
    unfold accepts waits
    simp
  rw [haccepts]
  unfold room Queue.isFull
  cases c.isClosed with
  | true => simp
  | false => simp

theorem lodge_written (c : Cache V) (key : String) (value : V) (ttl : Span) (wait : Bool) :
    ∃ contents writes counters,
      (c.lodge key value ttl wait).2 = { c with contents, writes, counters } := by
  cases hs : c.contents.occupant? key with
  | some s =>
    rw [lodge_of_occupant hs]
    split <;> exact ⟨_, _, _, rfl⟩
  | none =>
    rw [lodge_of_vacant hs]
    split <;> exact ⟨_, _, _, rfl⟩

/-- A store puts one operation at the end of the queue if there is room, for the entry that is then
under the key. -/
theorem lodge_queued (c : Cache V) (key : String) (value : V) (ttl : Span) :
    ∃ ops : List WriteOp,
      (c.lodge key value ttl false).2.writes = { c.writes with items := c.writes.items ++ ops } ∧
      ops.length = min c.room 1 ∧
      ∀ op ∈ ops, ∃ s, op.upserted? = some s ∧
        (c.lodge key value ttl false).2.contents.occupant? key = some s := by
  have hroom := c.accepts_iff_room
  cases haccepts : c.accepts false with
  | true =>
    have hone : min c.room 1 = 1 := Nat.min_eq_right (hroom.mp haccepts)
    cases hs : c.contents.occupant? key with
    | some s =>
      rw [lodge_of_occupant hs, if_pos haccepts]
      refine ⟨[.update s], rfl, hone.symm, fun op hop => ⟨s, ?_, ?_⟩⟩
      · cases List.mem_singleton.mp hop
        rfl
      · exact (Contents.occupant?_modify c.contents s _ key).trans hs
    | none =>
      rw [lodge_of_vacant hs, if_pos haccepts]
      refine ⟨[.set c.nextSerial], rfl, hone.symm, fun op hop => ⟨c.nextSerial, ?_, ?_⟩⟩
      · cases List.mem_singleton.mp hop
        rfl
      · exact (Contents.occupant?_place_create c.contents key value _ key).trans (if_pos rfl)
  | false =>
    have hzero : c.room = 0 := by
      rw [haccepts] at hroom
      simpa using hroom
    refine ⟨[], ?_, by rw [hzero]; rfl, nofun⟩
    rw [List.append_nil]
    cases hs : c.contents.occupant? key with
    | some s => rw [lodge_of_occupant hs, if_neg (by simp [haccepts])]
    | none => rw [lodge_of_vacant hs, if_neg (by simp [haccepts])]

theorem room_lodge (c : Cache V) (key : String) (value : V) (ttl : Span) :
    (c.lodge key value ttl false).2.room = c.room - 1 := by
  obtain ⟨ops, hwrites, hlength, _⟩ := c.lodge_queued key value ttl
  unfold room isClosed at hlength ⊢
  rw [hwrites]
  dsimp only
  rw [List.length_append]
  cases hclosed : c.writes.closed with
  | true => rfl
  | false =>
    rw [hclosed, if_neg Bool.false_ne_true] at hlength
    rw [if_neg Bool.false_ne_true, if_neg Bool.false_ne_true]
    omega

/-- Storing a value moves no other key to another entry. -/
theorem occupant?_lodge_of_ne (h : c.contents.WellKeyed) {other : String} (hne : other ≠ key)
    (value : V) (ttl : Span) (wait : Bool) :
    (c.lodge key value ttl wait).2.contents.occupant? other = c.contents.occupant? other := by
  cases hs : c.contents.occupant? key with
  | some s =>
    rw [lodge_of_occupant hs]
    cases c.accepts wait <;> exact Contents.occupant?_modify c.contents s _ other
  | none =>
    have hplaced : ((c.created key value ttl).place c.nextSerial).WellKeyed :=
      (h.create key value (c.clock.stampAfter ttl)).place c.nextSerial
    have hslots : ((c.created key value ttl).place c.nextSerial).occupant? other =
        c.contents.occupant? other :=
      (Contents.occupant?_place_create c.contents key value _ other).trans (if_neg (Ne.symm hne))
    rw [lodge_of_vacant hs]
    cases c.accepts wait with
    | true => exact hslots
    | false =>
      refine (hplaced.occupant?_vacate c.nextSerial other).trans ?_
      rw [hslots]
      refine if_neg fun hlast => ?_
      exact Nat.lt_irrefl _ (h.occupant_lt hlast)

/-- What some stores leave whose callers do not wait. -/
structure StoredAll (a : Cache V) (ttl : Span) (pairs : List (String × V)) (c : Cache V) :
    Prop where
  written : ∃ contents writes counters, c = { a with contents, writes, counters }
  keyed : c.contents.WellKeyed
  /-- A value shows under its key unless the key had no slot and there was no room any more. -/
  shown : ∀ j key value, pairs[j]? = some (key, value) →
    c.contents.reading key =
      if (a.contents.reading key).isSome ∨ j < a.room then some (value, a.clock.stampAfter ttl)
      else none
  others : ∀ key, key ∉ pairs.map (·.1) → c.contents.reading key = a.contents.reading key
  slots : ∀ key, key ∉ pairs.map (·.1) → c.contents.occupant? key = a.contents.occupant? key
  /-- As many operations are queued as there is room for, each for the entry under its key. -/
  queued : ∃ ops : List WriteOp, c.writes = { a.writes with items := a.writes.items ++ ops } ∧
    ops.length = min a.room pairs.length ∧
    ∀ (j : Nat) (op : WriteOp), ops[j]? = some op → ∃ key value s, pairs[j]? = some (key, value) ∧
      op.upserted? = some s ∧ c.contents.occupant? key = some s

theorem storeAll_cons (c : Cache V) (ttl : Span) (key : String) (value : V)
    (rest : List (String × V)) :
    c.storeAll ttl ((key, value) :: rest) =
      (c.lodge key value ttl false).2.storeAll ttl rest := by
  rw [← store_without_wait]
  rfl

/-- Where there was no room for the first operation, there is none for those after it. -/
theorem forall_queued {room n : Nat} {ops later : List WriteOp} {P : Nat → WriteOp → Prop}
    (hlength : ops.length = min room 1) (hlater : later.length = min (room - 1) n)
    (hfirst : ∀ op ∈ ops, P 0 op) (hrest : ∀ j op, later[j]? = some op → P (j + 1) op) (j : Nat)
    (op : WriteOp) (hop : (ops ++ later)[j]? = some op) : P j op := by
  cases ops with
  | nil =>
    have hnone : later.length = 0 := by
      rw [List.length_nil] at hlength
      omega
    rw [List.eq_nil_of_length_eq_zero hnone] at hop
    cases hop
  | cons first none =>
    have hnil : none.length = 0 := by
      rw [List.length_cons] at hlength
      omega
    rw [List.eq_nil_of_length_eq_zero hnil] at hop
    cases j with
    | zero =>
      cases hop
      exact hfirst op List.mem_cons_self
    | succ j => exact hrest j op hop

theorem storeAll_spec (h : c.contents.WellKeyed) (ttl : Span) (pairs : List (String × V))
    (hnodup : (pairs.map (·.1)).Nodup) : StoredAll c ttl pairs (c.storeAll ttl pairs) := by
  induction pairs generalizing c with
  | nil =>
    refine ⟨⟨_, _, _, rfl⟩, h, nofun, fun _ _ => rfl, fun _ _ => rfl, [], ?_, by simp, nofun⟩
    rw [List.append_nil]
    rfl
  | cons pair rest ih =>
    obtain ⟨key, value⟩ := pair
    obtain ⟨hfresh, hrest⟩ := List.nodup_cons.mp hnodup
    obtain ⟨contents, writes, counters, hwritten⟩ := c.lodge_written key value ttl false
    have hfollows := lodge_follows h key value ttl false
    have hroom := c.room_lodge key value ttl
    obtain ⟨ops, hqueue, hlength, hown⟩ := c.lodge_queued key value ttl
    have hslot {other : String} (hne : other ≠ key) := occupant?_lodge_of_ne h hne value ttl false
    have hothers {other : String} (hne : other ≠ key) :
        (c.lodge key value ttl false).2.contents.reading other = c.contents.reading other := by
      rw [hfollows.reading]
      split
      · exact if_neg hne
      · rfl
    have hclock : (c.lodge key value ttl false).2.clock = c.clock :=
      (c.lodge_frame key value ttl false).2.1
    have hlater := ih hfollows.ages.wellKeyed hrest
    rw [storeAll_cons]
    generalize (c.lodge key value ttl false).2 = c₁ at *
    refine ⟨?_, hlater.keyed, ?_, ?_, ?_, ?_⟩
    · obtain ⟨contents', writes', counters', heq⟩ := hlater.written
      exact ⟨contents', writes', counters', by rw [heq, hwritten]⟩
    · intro j other value' hpair
      cases j with
      | zero =>
        cases hpair
        rw [hlater.others key hfresh, hfollows.reading]
        simp only [Bool.or_eq_true, c.accepts_iff_room]
        split
        · exact if_pos rfl
        · rename_i hrefused
          exact Option.not_isSome_iff_eq_none.mp (not_or.mp hrefused).1
      | succ j =>
        have hin : other ∈ rest.map (·.1) :=
          List.mem_map.mpr ⟨_, List.mem_of_getElem? hpair, rfl⟩
        have hne : other ≠ key := fun heq => hfresh (heq ▸ hin)
        have hplace : j < c.room - 1 ↔ j + 1 < c.room := by omega
        rw [hlater.shown j other value' hpair, hothers hne, hclock, hroom]
        simp only [hplace]
    · intro other hother
      rw [List.map_cons, List.mem_cons, not_or] at hother
      exact (hlater.others other hother.2).trans (hothers hother.1)
    · intro other hother
      rw [List.map_cons, List.mem_cons, not_or] at hother
      exact (hlater.slots other hother.2).trans (hslot hother.1)
    · obtain ⟨ops', hqueue', hlength', hown'⟩ := hlater.queued
      rw [hroom] at hlength'
      refine ⟨ops ++ ops', ?_, ?_, ?_⟩
      · rw [hqueue', hqueue, List.append_assoc]
      · rw [List.length_append, List.length_cons]
        omega
      · refine forall_queued hlength hlength' ?_ hown'
        intro op hop
        obtain ⟨s, hs, hocc⟩ := hown op hop
        exact ⟨key, value, s, rfl, hs, (hlater.slots key hfresh).trans hocc⟩

end Cache

namespace System

variable {V : Type} {s : System V} {keys : List String} {loader : BatchLoader V} {ttl : Span}
  {meanwhile : List (Move V)}

/-! ## A batch load -/

/-- A call of `getManyOrLoadWith` in the course of whose loader there are some moves. -/
def loadMany (s : System V) (keys : List String) (loader : BatchLoader V) (ttl : Span)
    (meanwhile : List (Move V)) :
    Except CacheError (Std.HashMap String (Option V)) × System V :=
  let ((found, missing), c) := s.cache.getMany keys
  if missing.isEmpty then (.ok found, { s with cache := c })
  else
    let loading := ({ s with cache := c.record (.loadingAll missing) } : System V).run meanwhile
    match loader missing with
    | .error fault => (.error (.load fault), loading)
    | .ok loaded =>
      (.ok (missing.foldl (fun found key => found.insert key loaded[key]?) found),
        { loading with cache := loading.cache.storeAll ttl loaded.toList })

/-- Without such moves it is the call as a whole. -/
theorem loadMany_at_once (s : System V) (keys : List String) (loader : BatchLoader V)
    (ttl : Span) :
    s.loadMany keys loader ttl [] =
      ((s.cache.getManyOrLoadWith keys loader ttl).1,
        { s with cache := (s.cache.getManyOrLoadWith keys loader ttl).2 }) := by
  unfold loadMany Cache.getManyOrLoadWith
  generalize s.cache.getMany keys = result
  obtain ⟨⟨found, missing⟩, c⟩ := result
  dsimp only
  split
  · rfl
  · cases loader missing <;> rfl

/-- The keys of a list without a live value, in order and as often as they are there. -/
def missing (s : System V) (keys : List String) : List String :=
  keys.filter fun key => (s.cache.get key).1.isNone

/-- The state in which the loader of a caller answers that has missed some of its keys. -/
def loadingMany (s : System V) (keys : List String) (meanwhile : List (Move V)) : System V :=
  ({ s with cache := (s.cache.getMany keys).2.record (.loadingAll (s.missing keys)) } :
    System V).run meanwhile

/-- The state in which the values of a batch have been stored. -/
def storedAll (s : System V) (ttl : Span) (pairs : List (String × V)) : System V :=
  { s with cache := s.cache.storeAll ttl pairs }

theorem storedAll_eq_run (s : System V) (ttl : Span) (pairs : List (String × V)) :
    s.storedAll ttl pairs = s.run (pairs.map fun pair => .store pair.1 pair.2 ttl false) := by
  induction pairs generalizing s with
  | nil => rfl
  | cons pair rest ih =>
    rw [List.map_cons, run_cons, ← ih]
    change ({ s with cache := s.cache.storeAll ttl (pair :: rest) } : System V) = _
    rw [Cache.storeAll_cons]
    rfl

theorem missing_eq (s : System V) (keys : List String) :
    (s.cache.getMany keys).1.2 = s.missing keys := (s.cache.getMany_spec keys).2.1

theorem loadMany_of_found (h : s.missing keys = []) :
    s.loadMany keys loader ttl meanwhile =
      (.ok (s.cache.getMany keys).1.1, { s with cache := (s.cache.getMany keys).2 }) := by
  have hmissing := (s.missing_eq keys).trans h
  unfold loadMany
  generalize s.cache.getMany keys = result at hmissing ⊢
  obtain ⟨⟨found, missing⟩, c⟩ := result
  cases hmissing
  rfl

theorem loadMany_of_error {fault : LoaderFault} (h : s.missing keys ≠ [])
    (hloader : loader (s.missing keys) = .error fault) :
    s.loadMany keys loader ttl meanwhile =
      (.error (.load fault), s.loadingMany keys meanwhile) := by
  have hmissing := s.missing_eq keys
  unfold loadMany loadingMany
  generalize s.missing keys = misses at h hloader hmissing ⊢
  generalize s.cache.getMany keys = result at hmissing ⊢
  obtain ⟨⟨found, missing⟩, c⟩ := result
  cases hmissing
  dsimp only
  rw [if_neg (by simpa using h), hloader]

theorem loadMany_of_ok {loaded : Std.HashMap String V} (h : s.missing keys ≠ [])
    (hloader : loader (s.missing keys) = .ok loaded) :
    s.loadMany keys loader ttl meanwhile =
      (.ok ((s.missing keys).foldl (fun found key => found.insert key loaded[key]?)
          (s.cache.getMany keys).1.1),
        (s.loadingMany keys meanwhile).storedAll ttl loaded.toList) := by
  have hmissing := s.missing_eq keys
  unfold loadMany loadingMany
  generalize s.missing keys = misses at h hloader hmissing ⊢
  generalize s.cache.getMany keys = result at hmissing ⊢
  obtain ⟨⟨found, missing⟩, c⟩ := result
  cases hmissing
  dsimp only
  rw [if_neg (by simpa using h), hloader]
  rfl

/-- The pairs of a map have different keys, in whatever order they come. -/
theorem nodup_of_perm_toList {pairs : List (String × V)} {loaded : Std.HashMap String V}
    (h : pairs.Perm loaded.toList) : (pairs.map (·.1)).Nodup := by
  rw [(h.map (·.1)).nodup_iff, List.nodup_iff_pairwise_ne, List.pairwise_map]
  exact Std.HashMap.distinct_keys_toList.imp fun hne => by simpa using hne

theorem Coherent.storedAll (h : s.Coherent) (ttl : Span) (pairs : List (String × V)) :
    (s.storedAll ttl pairs).Coherent := by
  rw [storedAll_eq_run]
  exact h.run _

theorem Coherent.loadingMany (h : s.Coherent) (keys : List String) (meanwhile : List (Move V)) :
    (s.loadingMany keys meanwhile).Coherent := by
  obtain ⟨⟨reads, counters, hframe⟩, _⟩ := s.cache.getMany_spec keys
  unfold System.loadingMany
  rw [hframe]
  refine Coherent.run ?_ meanwhile
  exact ⟨h.keyed, h.stamped, h.detached_gone, h.deleted_gone⟩

/-- A worker that takes the operation for an entry changes nothing that readers see but for the key
whose entry it evicts. -/
theorem Coherent.reading_upsert (h : s.Coherent) {op : WriteOp} {rest : List WriteOp} {t : Serial}
    (hitems : s.cache.writes.items = op :: rest) (hop : op.upserted? = some t) (key : String) :
    (s.step .workWrite).cache.contents.reading key = s.cache.contents.reading key ∨
      (s.step .workWrite).cache.contents.reading key = none ∧
        ∃ victim, (s.cache.recency.add s.cache.contents t).1 = some victim ∧
          s.cache.contents.occupant? key = some victim := by
  have hchange : s.change .workWrite =
      (((s.cache.recency.add s.cache.contents t).1).bind s.cache.contents.entry?).elim .keep
        (.remove ·.key) := by
    change s.cache.writeChange = _
    unfold Cache.writeChange
    rw [hitems]
    generalize hevicted : ((s.cache.recency.add s.cache.contents t).1).bind _ = evicted
    cases op <;> cases hop <;> (dsimp only; rw [hevicted]; cases evicted <;> rfl)
  rw [(h.step_follows .workWrite).reading, hchange]
  cases hvictim : (s.cache.recency.add s.cache.contents t).1 with
  | none => exact Or.inl rfl
  | some victim =>
    obtain ⟨e, he, hslot⟩ := Contents.occupies_iff.mp
      ((Recency.add_vacated h.keyed s.cache.recency t).2 victim hvictim)
    rw [Option.bind_some, he]
    by_cases heq : key = e.key
    · exact Or.inr ⟨if_pos heq, victim, rfl, heq ▸ hslot⟩
    · exact Or.inl (if_neg heq)

/-- A caller that looks up many keys has the loader called just if some of them show no live value,
and then once, for those; other moves may be made before the loader answers, or none, as in the call
as a whole. The answer has every key that was asked for and no other: the live value that was found
first, or else what was loaded. If the loader fails, the cache is as it was when the loader ran, and
that is as it was before but for the misses and the notes of reads. Otherwise everything loaded is
stored, in whatever order the pairs come, also over values that were found; a pair is refused only
for want of room in the queue, and no other key is touched then. When the worker draws the
consequences, other keys go only to make room. -/
theorem misses_call_batch_loader_once {options : Options V} {clock : Clock} {c : Cache V}
    (hc : Cache.create options clock = .ok c) {before : List (Move V)}
    (hs : ({ cache := c } : System V).run before = s)
    {answer : Except CacheError (Std.HashMap String (Option V))} {done : System V}
    (hload : s.loadMany keys loader ttl meanwhile = (answer, done)) :
    let missing := keys.filter fun key => (s.cache.get key).1.isNone
    let asked := s.loadingMany keys meanwhile
    s.loadMany keys loader ttl [] = ((s.cache.getManyOrLoadWith keys loader ttl).1,
      { s with cache := (s.cache.getManyOrLoadWith keys loader ttl).2 }) ∧
    (missing = [] →
      (∃ found, answer = .ok found ∧
        ∀ key, found[key]? = if key ∈ keys then some (s.cache.get key).1 else none) ∧
      ∃ reads counters, done = { s with cache := { s.cache with reads, counters } }) ∧
    (missing ≠ [] →
      (∃ reads counters, asked = ({ s with cache :=
        { s.cache with reads, counters, log := s.cache.log.push (.loadingAll missing) } } :
          System V).run meanwhile) ∧
      done.cache.log = asked.cache.log ∧
      (∀ fault, loader missing = .error fault → answer = .error (.load fault) ∧ done = asked) ∧
      ∀ loaded, loader missing = .ok loaded →
        (∃ found, answer = .ok found ∧ ∀ key,
          found[key]? = if key ∈ keys then some ((s.cache.get key).1 <|> loaded[key]?) else none) ∧
        done = asked.storedAll ttl loaded.toList ∧
        ∀ pairs, pairs.Perm loaded.toList →
          Cache.StoredAll asked.cache ttl pairs (asked.storedAll ttl pairs).cache ∧
          ∀ later op rest t, ((asked.storedAll ttl pairs).run later).cache.writes.items =
              op :: rest → op.upserted? = some t → ∀ key,
            let s' := (asked.storedAll ttl pairs).run later
            (s'.step .workWrite).cache.contents.reading key = s'.cache.contents.reading key ∨
              (s'.step .workWrite).cache.contents.reading key = none ∧
                ∃ victim, (s'.cache.recency.add s'.cache.contents t).1 = some victim ∧
                  s'.cache.contents.occupant? key = some victim) := by
  intro missing asked
  have hcoherent : s.Coherent := hs ▸ (coherent_create hc).run before
  have hasked : asked.Coherent := hcoherent.loadingMany keys meanwhile
  obtain ⟨⟨reads, counters, hframe⟩, _, hfound⟩ := s.cache.getMany_spec keys
  refine ⟨s.loadMany_at_once keys loader ttl, ?_, ?_⟩
  · intro hnone
    rw [loadMany_of_found hnone] at hload
    cases hload
    refine ⟨⟨_, rfl, ?_⟩, reads, counters, by rw [hframe]⟩
    intro key
    rw [hfound]
    split
    · rename_i hmem
      have hlive : ((s.cache.get key).1.isNone) = false :=
        Bool.eq_false_iff.mpr (List.filter_eq_nil_iff.mp hnone key hmem)
      cases hvalue : (s.cache.get key).1 with
      | some value => rfl
      | none => simp [hvalue] at hlive
    · rfl
  · intro hsome
    refine ⟨⟨reads, counters, ?_⟩, ?_⟩
    · change System.run _ meanwhile = _
      rw [hframe]
      rfl
    · cases hloader : loader missing with
      | error fault =>
        rw [loadMany_of_error hsome hloader] at hload
        cases hload
        refine ⟨rfl, ?_, nofun⟩
        rintro _ ⟨rfl⟩
        exact ⟨rfl, rfl⟩
      | ok loaded =>
        rw [loadMany_of_ok hsome hloader] at hload
        cases hload
        have hstored {pairs : List (String × V)} (hperm : pairs.Perm loaded.toList) :
            Cache.StoredAll asked.cache ttl pairs (asked.storedAll ttl pairs).cache :=
          Cache.storeAll_spec hasked.keyed ttl pairs (nodup_of_perm_toList hperm)
        obtain ⟨contents, writes, counters', hwritten⟩ := (hstored (.refl _)).written
        have hlog := congrArg Cache.log hwritten
        refine ⟨hlog, nofun, ?_⟩
        rintro _ ⟨rfl⟩
        refine ⟨⟨_, rfl, ?_⟩, rfl, ?_⟩
        · intro key
          rw [← s.missing_eq keys]
          exact s.cache.getElem?_answer keys loaded key
        · intro pairs hperm
          refine ⟨hstored hperm, fun later op rest t hitems hop key => ?_⟩
          exact ((hasked.storedAll ttl pairs).run later).reading_upsert hitems hop key

/-- A value that was found is answered though the loader sent another, one that was sent unasked is
not, and a key that was asked for twice is loaded twice. -/
theorem misses_call_batch_loader_once_mixed :
    ∃ c : Cache Nat, Cache.create {} { unix := 0 } = .ok c ∧
      ∃ found done, (({ cache := c } : System Nat).run [.store "a" 1 .zero false]).loadMany
          ["b", "a", "b", "c"] (fun _ => .ok {("a", 9), ("b", 2), ("d", 3)}) .zero [] =
            (.ok found, done) ∧
        found["a"]? = some (some 1) ∧ found["b"]? = some (some 2) ∧ found["c"]? = some none ∧
        found["d"]? = none ∧ done.cache.log = #[.loadingAll ["b", "b", "c"]] := by
  let options : Options Nat := {}
  obtain ⟨c, hc⟩ := Cache.exists_create (show options.shards ≤ _ by decide) { unix := 0 }
  let start : System Nat := { cache := c }
  let s := start.run [.store "a" 1 .zero false]
  let loaded : Std.HashMap String Nat := {("a", 9), ("b", 2), ("d", 3)}
  obtain ⟨contents, _, heq⟩ := Cache.create_eq_ok hc
  have haccepts : c.accepts false = true := by
    rw [heq]
    rfl
  have hput : start.change (.store "a" 1 .zero false) = .put "a" 1 none := by
    unfold change
    dsimp only
    rw [show start.cache.accepts false = true from haccepts, Bool.or_true, if_pos rfl]
    rfl
  have hreading : s.cache.contents.reading =
      fun key => if key = "a" then some (1, none) else none := by
    have hfollows := ((coherent_create hc).step_follows (.store "a" 1 .zero false)).reading
    rw [show ({ cache := c } : System Nat).change _ = _ from hput,
      show ({ cache := c } : System Nat).cache.contents.reading = _ from
        Cache.reading_create hc] at hfollows
    exact hfollows
  have hget (key : String) : (s.cache.get key).1 = if key = "a" then some 1 else none := by
    rw [Cache.get_fst, hreading]
    unfold Readings.alive Readings.answer
    dsimp only
    by_cases hkey : key = "a"
    · rw [if_pos hkey, if_pos hkey]
    · rw [if_neg hkey, if_neg hkey]
  have hmissing : (["b", "a", "b", "c"].filter fun key => (s.cache.get key).1.isNone) =
      ["b", "b", "c"] := by
    simp only [hget]
    decide
  have hbefore : start.run [.store "a" 1 .zero false] = s := rfl
  obtain ⟨answer, done, hload⟩ : ∃ answer done,
      s.loadMany ["b", "a", "b", "c"] (fun _ => .ok loaded) .zero [] = (answer, done) := by
    generalize s.loadMany ["b", "a", "b", "c"] (fun _ => .ok loaded) .zero [] = result
    exact ⟨result.1, result.2, rfl⟩
  obtain ⟨_, _, hmissed⟩ := misses_call_batch_loader_once hc hbefore hload
  rw [hmissing] at hmissed
  obtain ⟨⟨reads, counters, hasked⟩, hlog, _, hfound⟩ := hmissed (by simp)
  obtain ⟨⟨found, hanswer, hlookup⟩, _⟩ := hfound loaded rfl
  subst hanswer
  refine ⟨c, hc, found, done, hload, ?_, ?_, ?_, ?_, ?_⟩
  · rw [hlookup, hget]
    rfl
  · rw [hlookup, hget]
    simp [loaded, Std.HashMap.getElem_insert]
  · rw [hlookup, hget]
    simp [loaded]
  · rw [hlookup]
    rfl
  · rw [hlog, hasked]
    change s.cache.log.push _ = _
    rw [show s.cache.log = c.log from (c.lodge_loads_log "a" 1 .zero false).2, heq]
    rfl

end System

end TimedCache
