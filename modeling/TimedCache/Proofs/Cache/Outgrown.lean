import TimedCache.Proofs.Cache.Headcount
import TimedCache.Proofs.Cache.Linking
import TimedCache.Proofs.Expiry.Requests
import TimedCache.Proofs.Recency.Outgrown

/-!
A cache without a bound that outgrows the handles of its list. It can have more entries than a handle
can count places: the next entry is linked under the handle of the first one, and as it is deleted the
first one leaves the list in its stead. And where the keys of one place come and go often enough, an
entry gets the one handle that stands for "not linked". Nobody waits for so many calls to be
evaluated: what they leave is proved by induction on the number of keys, and of turns in a place.
-/

namespace TimedCache

namespace Cache

variable {V : Type} {c : Cache V} {key : String} {s t u : Serial} {place : Handle}

/-- An entry with a slot is linked where there is no bound. Its timer is renewed unless the handle has
the word for an entry that is not linked. -/
theorem upsert_of_unbounded (hcapacity : c.recency.capacity = 0) (hkeyed : c.contents.WellKeyed)
    (hslot : c.contents.occupant? key = some s) (hunlinked : c.contents.handle? s = none)
    (hlast : c.expiry.atLastTick = false) :
    c.upsert s = { c with
      recency := (c.recency.admitted c.contents s).1
      contents := c.contents.link s (c.recency.allocate s).1
      expiry := if (Handle.ofWord? (c.recency.allocate s).1.toWord).isSome then
          c.expiry.renew c.clock key s (c.endOf? s)
        else c.expiry } := by
  have hadd := Recency.add_of_unbounded hcapacity (hkeyed.occupies_of_occupant? hslot) hunlinked
  have hadded : c.added s = { c with
      recency := (c.recency.admitted c.contents s).1
      contents := c.contents.link s (c.recency.allocate s).1 } := by
    unfold added
    rw [hadd]
    rfl
  obtain ⟨e, he, _⟩ := hkeyed.keyed key s hslot
  have hhandle : (c.added s).contents.handle? s = Handle.ofWord? (c.recency.allocate s).1.toWord := by
    rw [hadded]
    exact Contents.handle?_link he _
  have hslot' : (c.added s).contents.occupant? key = some s := by
    rw [hadded]
    exact (Contents.occupant?_link c.contents s _ key).trans hslot
  have hkeyed' : (c.added s).contents.WellKeyed := (Recency.add_vacated hkeyed c.recency s).1.wellKeyed
  have hrenewed : (c.added s).renewed s = c.expiry.renew c.clock key s (c.endOf? s) := by
    unfold renewed
    rw [hkeyed'.keyOf_of_occupant hslot', endOf?_added hkeyed]
    rfl
  rw [upsert_eq, hadd]
  dsimp only
  unfold timed
  rw [hhandle, hkeyed'.occupies_of_occupant? hslot', Bool.true_and]
  cases (Handle.ofWord? (c.recency.allocate s).1.toWord).isSome with
  | false =>
    rw [if_neg Bool.false_ne_true, if_neg Bool.false_ne_true]
    exact hadded
  | true => rw [if_pos rfl, if_pos rfl, schedule_renews (c := c.added s) hlast, hrenewed, hadded]

/-- An entry whose place is another's is deleted: the other one is taken off the list. -/
theorem bury_of_place (hkeyed : c.contents.WellKeyed) (hkey : c.contents.keyOf t = some key)
    (hsilent : c.options.onDelete = none) (hplace : c.contents.handle? t = some place)
    (hcore : (c.recency.nodes[place.index.toNat]?).map Recency.core = some (some u, place.generation))
    (halarm : c.expiry.alarms[key]? = none) :
    ∃ contents, c.bury t = { c with recency := c.recency.released place.index.toNat, contents } ∧
      Contents.Vacated c.contents contents (some t) ∧ contents.handle? u = none := by
  have hentries : (c.contents.vacate t).2.handle? t = some place := by
    rw [← hplace]
    unfold Contents.handle? Contents.entry?
    rw [Contents.entries_vacate]
  have hremove := Recency.remove_of_place hentries hcore
  let contents := (c.contents.vacate t).2.unlink u
  have hremoved : c.removed t = { c with recency := c.recency.released place.index.toNat, contents } := by
    unfold removed
    rw [hremove]
  have hvacated : Contents.Vacated c.contents contents (some t) := by
    have hvacated := Recency.remove_vacated hkeyed c.recency t
    rw [hremove] at hvacated
    exact hvacated
  have hkey' : contents.keyOf t = some key := (congrFun hvacated.keyOf_eq t).trans hkey
  obtain ⟨e, he, rfl⟩ := Option.map_eq_some_iff.mp hkey'
  have hkept : (c.expiry.removeOwned e.key t).2 = c.expiry := by
    rw [Expiry.removeOwned_eq, halarm]
    rfl
  refine ⟨contents, ?_, hvacated, Contents.handle?_unlink _ u⟩
  rw [bury_eq, hremoved]
  dsimp only
  rw [he, hsilent]
  dsimp only
  rw [hkept]
  rfl

end Cache

namespace System

variable {V : Type} {c : Cache V} {key : String} {n t u : Serial} {place : Handle}

/-- A new value is stored where there is no bound, and the worker comes to it. -/
theorem run_store_of_unbounded (hkeyed : c.contents.WellKeyed)
    (hvacant : c.contents.occupant? key = none) (value : V) (ttl : Span)
    (haccepts : c.accepts false = true) (hidle : c.writes.items = [])
    (hcapacity : c.recency.capacity = 0) (hlast : c.expiry.atLastTick = false)
    (hmade : c.nextSerial = n) (hplace : (c.recency.allocate n).1 = place) {expiry : Expiry}
    (hexpiry : (if (Handle.ofWord? place.toWord).isSome then
        c.expiry.renew c.clock key n ((c.clock.stampAfter ttl).map fun stamp =>
          satAdd stamp c.options.expireDelay.millis)
      else c.expiry) = expiry) :
    ∃ contents, ({ cache := c } : System V).run [.store key value ttl false, .workWrite] =
        { cache := { c with recency := (c.recency.admitted c.contents n).1, contents, expiry } } ∧
      Cache.Placed c.contents contents key value (c.clock.stampAfter ttl) place := by
  subst hmade hplace hexpiry
  let d : Cache V := { c with contents := (c.created key value ttl).place c.nextSerial }
  have hentry : d.contents.entry? c.nextSerial =
      some { key, value, expireAt := c.clock.stampAfter ttl } :=
    (Contents.entry?_place _ _ _).trans (Contents.entry?_created c.contents key value _)
  have hslot : d.contents.occupant? key = some c.nextSerial :=
    (Contents.occupant?_place_create c.contents key value _ key).trans (if_pos rfl)
  have hunlinked : d.contents.handle? c.nextSerial = none := by
    unfold Contents.handle?
    rw [hentry]
    rfl
  have hend : d.endOf? c.nextSerial = (c.clock.stampAfter ttl).map fun stamp =>
      satAdd stamp c.options.expireDelay.millis := by
    unfold Cache.endOf?
    rw [hentry]
    rfl
  refine ⟨_, ?_, Cache.placed_created hkeyed key value ttl _⟩
  have hwork := Cache.workWrite_of_vacant hvacant value ttl haccepts hidle
  change ({ cache := (c.lodge key value ttl false).2.workWrite } : System V) = _
  rw [hwork, Cache.upsert_of_unbounded (c := d) hcapacity ((hkeyed.create key value _).place _) hslot
    hunlinked hlast, hend]
  rfl

/-- A caller deletes a key whose entry has the place of another one, and the worker comes to that. -/
theorem run_delete_of_place (hkeyed : c.contents.WellKeyed)
    (hslot : c.contents.occupant? key = some t) (hidle : c.writes.items = [])
    (halive : c.isClosed = false) (hsilent : c.options.onDelete = none)
    (hplace : c.contents.handle? t = some place)
    (hcore : (c.recency.nodes[place.index.toNat]?).map Recency.core = some (some u, place.generation))
    (halarm : c.expiry.alarms[key]? = none) :
    ∃ told contents, ({ cache := c } : System V).run [.detach key, .sendDelete t] = { cache := told } ∧
      told = ({ c with contents := (c.contents.takeKey key).2 } : Cache V).queued (.delete t) ∧
      told.workWrite = { c with recency := c.recency.released place.index.toNat, contents } ∧
      Contents.Vacated c.contents contents (some t) ∧ contents.handle? u = none := by
  let taken : Cache V := { c with contents := (c.contents.takeKey key).2 }
  have htaken : Contents.Vacated c.contents taken.contents (some t) :=
    hslot ▸ hkeyed.vacated_takeKey key
  have hkey : taken.contents.keyOf t = some key :=
    (congrFun htaken.keyOf_eq t).trans (hkeyed.keyOf_of_occupant hslot)
  have hplace' : taken.contents.handle? t = some place := by
    rw [← hplace]
    unfold Contents.handle? Contents.entry? taken
    rw [Contents.entries_takeKey]
  obtain ⟨contents, hbury, hvacated, hnone⟩ :=
    Cache.bury_of_place (c := taken) htaken.wellKeyed hkey hsilent hplace' hcore halarm
  have hwork : (taken.queued (.delete t)).workWrite = taken.bury t :=
    Cache.workWrite_queued (c := taken) hidle (.delete t)
  exact ⟨taken.queued (.delete t), contents, run_detach (s := { cache := c }) hslot halive, rfl,
    hwork.trans hbury, htaken.trans_self hvacated, hnone⟩

/-! ## One key after the other -/

/-- As many keys as there are numbers. -/
def numbered (i : Nat) : String := String.ofList (List.replicate i 'k')

theorem numbered_inj {i j : Nat} : numbered i = numbered j ↔ i = j := by
  refine ⟨fun h => ?_, congrArg numbered⟩
  have hlength := congrArg (fun key : String => key.toList.length) h
  unfold numbered at hlength
  simpa using hlength

/-- The first key gets a lifetime. -/
def fill (n : Nat) : List (Move Nat) :=
  (List.range n).flatMap fun i =>
    [.store (numbered i) 0 (if i = 0 then .ofMillis 1000 else .zero) false, .workWrite]

/-- The new cache after so many values were stored, each of which the worker linked at once. -/
structure Filled (c : Cache Nat) (n : Nat) (d : Cache Nat) : Prop where
  frame : ∃ recency contents expiry, d = { c with recency, contents, expiry }
  arena : d.recency.Filled n
  front : 0 < n → d.recency.head = some (UInt32.ofNat (n - 1)).toNat
  keyed : d.contents.WellKeyed
  made : d.nextSerial = n
  slots : ∀ i, d.contents.occupant? (numbered i) = if i < n then some i else none
  place : 0 < n →
    d.contents.handle? (n - 1) = some { index := UInt32.ofNat (n - 1), generation := 0 }
  first : 0 < n → d.contents.shown? 0 = some (numbered 0, 0, some 1000)
  timers : d.expiry = if n = 0 then c.expiry else (c.expiry.replace c.clock (numbered 0) 0 1000).2

theorem filled {c : Cache Nat} (hc : Cache.create { capacity := 0 } { unix := 0 } = .ok c) (n : Nat) :
    ∃ d, ({ cache := c } : System Nat).run (fill n) = { cache := d } ∧ Filled c n d := by
  have hstamp : ({ unix := 0 } : Clock).stampAfter (.ofMillis 1000) = some 1000 := by decide
  have habsent := Cache.alarms_create hc
  obtain ⟨haccepts, hidle, hclock, hdelay, hticks⟩ : c.accepts false = true ∧ c.writes.items = [] ∧
      c.clock = { unix := 0 } ∧ c.options.expireDelay = .zero ∧
        c.expiry.timer.wheel.current = 0 := by
    obtain ⟨_, _, rfl⟩ := Cache.create_eq_ok hc
    exact ⟨rfl, rfl, rfl, rfl, rfl⟩
  induction n with
  | zero =>
    have hvacant := Cache.vacant_create hc
    have hkeyed := (coherent_create hc).keyed
    have hmade := Cache.nextSerial_create hc
    obtain ⟨_, _, rfl⟩ := Cache.create_eq_ok hc
    exact ⟨_, rfl, ⟨_, _, _, rfl⟩, Recency.filled_withCapacity, nofun, hkeyed, hmade,
      fun i => hvacant (numbered i), nofun, nofun, rfl⟩
  | succ n ih =>
    obtain ⟨d, hrun, h⟩ := ih
    obtain ⟨recency, contents, expiry, rfl⟩ := h.frame
    let ttl : Span := if n = 0 then .ofMillis 1000 else .zero
    have hfill : fill (n + 1) = fill n ++ [.store (numbered n) 0 ttl false, .workWrite] := by
      unfold fill
      rw [List.range_succ, List.flatMap_append]
      rfl
    have hvacant := (h.slots n).trans (if_neg n.lt_irrefl)
    have htimers : expiry = if n = 0 then c.expiry else
        (c.expiry.replace c.clock (numbered 0) 0 1000).2 := h.timers
    have hlast : expiry.atLastTick = false := by
      have hcurrent : expiry.timer.wheel.current = 0 := by
        rw [htimers]
        split
        · exact hticks
        · exact (Expiry.replace_frame _ _ _ _ _).2.trans hticks
      exact Expiry.atLastTick_of_start hcurrent
    obtain ⟨harena, hfront⟩ := h.arena.admitted contents
    have hmade : contents.entries.size = n := h.made
    have hfirst : Handle.ofWord? ({ index := UInt32.ofNat n, generation := 0 } : Handle).toWord =
        some { index := UInt32.ofNat n, generation := 0 } :=
      Recency.ofWord?_of_early _ (show (0 : UInt32).toNat + 1 < Recency.maxPlaces by decide)
    have hrenewed : expiry.renew c.clock (numbered n) n ((c.clock.stampAfter ttl).map fun stamp =>
        satAdd stamp c.options.expireDelay.millis) =
          (c.expiry.replace c.clock (numbered 0) 0 1000).2 := by
      rw [hclock, hdelay]
      rcases Nat.eq_zero_or_pos n with rfl | hpos
      · rw [htimers, if_pos rfl, show ttl = .ofMillis 1000 from rfl, hstamp]
        rfl
      · have hne : numbered n ≠ numbered 0 := fun heq => hpos.ne' (numbered_inj.mp heq)
        rw [if_neg hpos.ne'] at htimers
        have hnone : expiry.alarms[numbered n]? = none := by
          rw [htimers, Expiry.alarms_replace _ _ _ _ _ _ hne, habsent]
        rw [show ttl = .zero from if_neg hpos.ne']
        change (expiry.remove (numbered n)).2 = _
        rw [Expiry.remove_of_absent hnone, htimers, hclock]
    obtain ⟨contents', hstored, hplaced⟩ := run_store_of_unbounded h.keyed hvacant 0 ttl haccepts hidle
      h.arena.capacity hlast h.made h.arena.allocate.1
      ((congrArg (fun place : Option Handle => if place.isSome then _ else _) hfirst).trans hrenewed)
    have hold (i : Nat) : contents.occupant? (numbered i) = if i < n then some i else none := h.slots i
    refine ⟨_, by rw [hfill, run_append, hrun, hstored], ⟨_, _, _, rfl⟩, harena, fun _ => hfront,
      hplaced.wellKeyed, hplaced.size_entries.trans (congrArg (· + 1) hmade), fun i => ?_, fun _ => ?_,
      fun _ => ?_, ?_⟩
    · change contents'.occupant? (numbered i) = _
      rw [hplaced.occupant, hmade, hold]
      rcases Nat.lt_trichotomy i n with hlt | rfl | hgt
      · rw [if_neg fun heq => hlt.ne' (numbered_inj.mp heq), if_pos hlt, if_pos (by omega)]
      · rw [if_pos rfl, if_pos i.lt_succ_self]
      · rw [if_neg fun heq => hgt.ne (numbered_inj.mp heq), if_neg (by omega), if_neg (by omega)]
    · have hhandle := hplaced.handle
      rw [hmade, hfirst] at hhandle
      exact hhandle
    · change contents'.shown? 0 = _
      rcases Nat.eq_zero_or_pos n with rfl | hpos
      · have hnewest := hplaced.newest
        rw [hmade, hclock] at hnewest
        exact hnewest.trans (congrArg (fun stamp => some (numbered 0, 0, stamp)) hstamp)
      · exact (hplaced.older 0 (hmade ▸ hpos)).trans (h.first hpos)
    · exact (if_neg n.succ_ne_zero).symm

/-- Only the first key has a timer. -/
theorem Filled.absent {c d : Cache Nat} {last : Nat} (h : Filled c (last + 1) d)
    (hc : Cache.create { capacity := 0 } { unix := 0 } = .ok c) (hpos : 0 < last) :
    d.expiry.alarms[numbered last]? = none := by
  have hne : numbered last ≠ numbered 0 := fun heq => hpos.ne' (numbered_inj.mp heq)
  rw [h.timers, if_neg last.succ_ne_zero, Expiry.alarms_replace _ _ _ _ _ _ hne,
    Cache.alarms_create hc]

/-! ## One key too many -/

/-- The last of some keys is deleted. -/
def outgrow (last : Nat) : List (Move Nat) :=
  fill (last + 1) ++ [.detach (numbered last), .sendDelete last]

/-- The first key whose place has no handle of its own has that of the first place, and as it is deleted
the first entry is taken off the list. -/
theorem run_outgrow {c : Cache Nat} (hc : Cache.create { capacity := 0 } { unix := 0 } = .ok c)
    {last : Nat} (hpos : 0 < last) (hlast : UInt32.ofNat last = 0) :
    ∃ d told contents, Filled c (last + 1) d ∧
      ({ cache := c } : System Nat).run (outgrow last) = { cache := told } ∧
      told = ({ d with contents := (d.contents.takeKey (numbered last)).2 } : Cache Nat).queued
        (.delete last) ∧
      told.workWrite = { d with recency := d.recency.released 0, contents } ∧
      Contents.Vacated d.contents contents (some last) ∧ contents.handle? 0 = none := by
  obtain ⟨d, hrun, h⟩ := filled hc (last + 1)
  obtain ⟨hidle, halive, hsilent⟩ : d.writes.items = [] ∧ d.isClosed = false ∧
      d.options.onDelete = none := by
    obtain ⟨_, _, _, hframe⟩ := h.frame
    rw [hframe]
    obtain ⟨_, _, rfl⟩ := Cache.create_eq_ok hc
    exact ⟨rfl, rfl, rfl⟩
  have hplace := h.place last.succ_pos
  rw [Nat.add_sub_cancel, hlast] at hplace
  obtain ⟨told, contents, htold, heq, hwork, hvacated, hnone⟩ := run_delete_of_place h.keyed
    ((h.slots last).trans (if_pos last.lt_succ_self)) hidle halive hsilent hplace
    (h.arena.places 0 last.succ_pos) (h.absent hc hpos)
  refine ⟨d, told, contents, h, ?_, heq, hwork, hvacated, hnone⟩
  unfold outgrow
  rw [run_append, hrun, htold]

/-- The first entry keeps its slot, though it is taken off the list for another one's deletion. -/
theorem outgrow_delists {c : Cache Nat} (hc : Cache.create { capacity := 0 } { unix := 0 } = .ok c)
    {last : Nat} (hpos : 0 < last) (hlast : UInt32.ofNat last = 0) :
    let s := ({ cache := c } : System Nat).run (outgrow last)
    s.cache.isClosed = false ∧ s.cache.contents.keyOf last = some (numbered last) ∧
      s.cache.contents.occupant? (numbered last) = none ∧ s.cache.writes.items = [.delete last] ∧
      s.cache.contents.occupant? (numbered 0) = some 0 ∧ 0 ∈ s.cache.recency.toList ∧
      s.cache.workWrite.contents.occupant? (numbered 0) = some 0 ∧
      0 ∉ s.cache.workWrite.recency.toList := by
  intro s
  obtain ⟨d, told, contents, h, hrun, htold, hwork, hvacated, -⟩ := run_outgrow hc hpos hlast
  have hfirst := (h.slots 0).trans (if_pos last.succ_pos)
  have hslot := (h.slots last).trans (if_pos last.lt_succ_self)
  have hkey := h.keyed.keyOf_of_occupant hslot
  have hlisted : 0 ∈ d.recency.toList := by
    refine h.arena.listed_front last.succ_pos ((h.front last.succ_pos).trans ?_)
    rw [Nat.add_sub_cancel, hlast]
    rfl
  obtain ⟨hidle, halive⟩ : d.writes.items = [] ∧ d.isClosed = false := by
    obtain ⟨_, _, _, hframe⟩ := h.frame
    rw [hframe]
    obtain ⟨_, _, rfl⟩ := Cache.create_eq_ok hc
    exact ⟨rfl, rfl⟩
  have htaken : Contents.Vacated d.contents (d.contents.takeKey (numbered last)).2 (some last) :=
    hslot ▸ h.keyed.vacated_takeKey (numbered last)
  have hother : some last ≠ some 0 := fun heq => hpos.ne' (Option.some.inj heq)
  rw [show s = _ from hrun]
  dsimp only
  rw [hwork, htold]
  have hqueue : d.writes.items ++ [.delete last] = [.delete last] := by rw [hidle, List.nil_append]
  refine ⟨halive, (congrFun htaken.keyOf_eq last).trans hkey, ?_, hqueue,
    (htaken.occupant_iff _ 0).mpr ⟨hfirst, hother⟩, hlisted,
    (hvacated.occupant_iff _ 0).mpr ⟨hfirst, hother⟩, h.arena.unlisted_released last.succ_pos⟩
  exact (Contents.occupant?_takeKey d.contents (numbered last) (numbered last)).trans (if_pos rfl)

/-- The handle of a place in its turn. -/
def handleAt (i k : Nat) : Handle := { index := UInt32.ofNat i, generation := UInt32.ofNat k }

/-- A key is deleted and stored anew, and the worker comes to both. -/
def turn (key : String) (t : Serial) (ttl : Span) : List (Move Nat) :=
  [.detach key, .sendDelete t] ++ [.workWrite] ++ [.store key 0 ttl false, .workWrite]

/-- The last of the keys has been deleted and stored anew so many times, always in the same place. -/
structure Turned (c : Cache Nat) (last k : Nat) (d : Cache Nat) : Prop where
  frame : ∃ recency contents expiry, d = { c with recency, contents, expiry }
  housed : d.recency.Housed last (last + k) (UInt32.ofNat k)
  keyed : d.contents.WellKeyed
  made : d.nextSerial = last + k + 1
  slot : d.contents.occupant? (numbered last) = some (last + k)
  place : d.contents.handle? (last + k) = Handle.ofWord? (handleAt last k).toWord
  absent : d.expiry.alarms[numbered last]? = none
  current : d.expiry.timer.wheel.current = 0

/-- As a key is stored anew, its entry gets the place of the old one, under the next generation. The
key gets no timer if the entry has no end, and none if its handle is taken for that of an entry that
is not linked. -/
theorem Turned.turn {c d : Cache Nat} {last k : Nat} (h : Turned c last k d)
    (hidle : c.writes.items = []) (haccepts : c.accepts false = true) (halive : c.isClosed = false)
    (hsilent : c.options.onDelete = none) (hlast : last < Recency.maxPlaces)
    (hk : k + 1 < Recency.maxPlaces) (ttl : Span)
    (hquiet : ttl = .zero ∨ Handle.ofWord? (handleAt last (k + 1)).toWord = none) :
    ∃ d', ({ cache := d } : System Nat).run (System.turn (numbered last) (last + k) ttl) =
        { cache := d' } ∧ Turned c last (k + 1) d' ∧
      d'.contents.shown? (last + (k + 1)) = some (numbered last, 0, c.clock.stampAfter ttl) := by
  obtain ⟨recency, contents, expiry, rfl⟩ := h.frame
  have hgeneration : UInt32.ofNat k + 1 = UInt32.ofNat (k + 1) := by simp [UInt32.ofNat_add]
  have hhandle : contents.handle? (last + k) = some (handleAt last k) := by
    refine h.place.trans (Recency.ofWord?_of_early _ ?_)
    have hsame : (UInt32.ofNat k).toNat = k := Recency.toNat_index (Nat.lt_of_succ_lt hk)
    exact hsame.symm ▸ hk
  have hindex : (handleAt last k).index.toNat = last := Recency.toNat_index hlast
  obtain ⟨told, freed, htold, -, hwork, hvacated, -⟩ := run_delete_of_place h.keyed h.slot hidle halive
    hsilent hhandle (hindex.symm ▸ h.housed.place) h.absent
  rw [hindex] at hwork
  let free : Cache Nat := { c with recency := recency.released last, contents := freed, expiry }
  have hfree : ({ cache := { c with recency, contents, expiry } } : System Nat).run
      ([.detach (numbered last), .sendDelete (last + k)] ++ [.workWrite]) = { cache := free } := by
    rw [run_append, htold]
    exact congrArg (fun cache => ({ cache } : System Nat)) hwork
  have hvacant : freed.occupant? (numbered last) = none := by
    rw [Option.eq_none_iff_forall_ne_some]
    intro s hs
    obtain ⟨hold, hne⟩ := (hvacated.occupant_iff _ s).mp hs
    exact hne (h.slot.symm.trans hold)
  obtain ⟨hplace, hhoused⟩ := h.housed.turn hlast freed (last + k + 1)
  rw [hgeneration] at hplace hhoused
  have hkept : (if (Handle.ofWord? (handleAt last (k + 1)).toWord).isSome then
      expiry.renew c.clock (numbered last) (last + k + 1) ((c.clock.stampAfter ttl).map fun stamp =>
        satAdd stamp c.options.expireDelay.millis) else expiry) = expiry := by
    rcases hquiet with rfl | hnone
    · have hremoved : (expiry.remove (numbered last)).2 = expiry :=
        congrArg Prod.snd (Expiry.remove_of_absent h.absent)
      split
      · exact hremoved
      · rfl
    · rw [hnone, Option.isSome_none, if_neg Bool.false_ne_true]
  obtain ⟨stored, hstored, hplaced⟩ := run_store_of_unbounded (c := free) hvacated.wellKeyed hvacant 0 ttl
    haccepts hidle ((Recency.detach_frame recency last).1.trans h.housed.capacity)
    (Expiry.atLastTick_of_start h.current) (hvacated.size_entries.trans h.made) hplace hkept
  have hmade : freed.entries.size = last + (k + 1) := hvacated.size_entries.trans h.made
  let fresh : Cache Nat := { c with
    recency := ((recency.released last).admitted freed (last + k + 1)).1, contents := stored, expiry }
  refine ⟨fresh, ?_, ⟨⟨_, _, _, rfl⟩, hhoused, hplaced.wellKeyed, ?_, ?_, ?_, h.absent, h.current⟩, ?_⟩
  · unfold System.turn
    rw [run_append, hfree, hstored]
  · exact hplaced.size_entries.trans (congrArg (· + 1) hmade)
  · exact (hplaced.occupant (numbered last)).trans ((if_pos rfl).trans (congrArg some hmade))
  · have hplace := hplaced.handle
    rwa [hmade] at hplace
  · have hnewest := hplaced.newest
    rwa [hmade] at hnewest

def turns (last n : Nat) : List (Move Nat) :=
  (List.range n).flatMap fun k => turn (numbered last) (last + k) .zero

theorem turned {c : Cache Nat} (hc : Cache.create { capacity := 0 } { unix := 0 } = .ok c)
    {last n : Nat} (hpos : 0 < last) (hlast : last < Recency.maxPlaces) (hn : n < Recency.maxPlaces) :
    ∃ d, ({ cache := c } : System Nat).run (fill (last + 1) ++ turns last n) = { cache := d } ∧
      Turned c last n d := by
  induction n with
  | zero =>
    obtain ⟨d, hrun, h⟩ := filled hc (last + 1)
    have hplace := h.place last.succ_pos
    rw [Nat.add_sub_cancel] at hplace
    have hfirst := Recency.ofWord?_of_early (handleAt last 0)
      (show (0 : UInt32).toNat + 1 < Recency.maxPlaces by decide)
    have hcurrent : d.expiry.timer.wheel.current = 0 := by
      rw [h.timers, if_neg last.succ_ne_zero, (Expiry.replace_frame _ _ _ _ _).2]
      obtain ⟨_, _, rfl⟩ := Cache.create_eq_ok hc
      rfl
    refine ⟨d, ?_, h.frame, h.arena.housed, h.keyed, h.made,
      (h.slots last).trans (if_pos last.lt_succ_self), hplace.trans hfirst.symm, h.absent hc hpos,
      hcurrent⟩
    rw [← hrun]
    exact congrArg _ (List.append_nil _)
  | succ n ih =>
    obtain ⟨d, hrun, h⟩ := ih (Nat.lt_of_succ_lt hn)
    obtain ⟨hidle, haccepts, halive, hsilent⟩ : c.writes.items = [] ∧ c.accepts false = true ∧
        c.isClosed = false ∧ c.options.onDelete = none := by
      obtain ⟨_, _, rfl⟩ := Cache.create_eq_ok hc
      exact ⟨rfl, rfl, rfl, rfl⟩
    obtain ⟨d', hturn, hturned, _⟩ := h.turn hidle haccepts halive hsilent hlast hn .zero (Or.inl rfl)
    have hturns : turns last (n + 1) = turns last n ++ turn (numbered last) (last + n) .zero := by
      unfold turns
      rw [List.range_succ, List.flatMap_append]
      rfl
    refine ⟨d', ?_, hturned⟩
    rw [hturns, ← List.append_assoc, run_append, hrun, hturn]

/-- The last of some keys is deleted and stored anew, again and again, and at last with a lifetime. -/
def wearOut (last n : Nat) : List (Move Nat) :=
  fill (last + 1) ++ turns last n ++ turn (numbered last) (last + n) (.ofMillis 10)

/-- An entry whose handle is taken for that of an entry that is not linked has an end, but no timer. -/
theorem run_wearOut {c : Cache Nat} (hc : Cache.create { capacity := 0 } { unix := 0 } = .ok c)
    (last n : Nat) (hpos : 0 < last) (hlast : last < Recency.maxPlaces)
    (hn : n + 1 < Recency.maxPlaces)
    (hword : Handle.ofWord? (handleAt last (n + 1)).toWord = none) :
    ∃ recency contents expiry, ({ cache := c } : System Nat).run (wearOut last n) =
        { cache := { c with recency, contents, expiry } } ∧
      contents.occupant? (numbered last) = some (last + (n + 1)) ∧
      contents.shown? (last + (n + 1)) = some (numbered last, 0, some 10) ∧
      expiry.contains (numbered last) = false := by
  obtain ⟨hidle, haccepts, halive, hsilent, hclock⟩ : c.writes.items = [] ∧ c.accepts false = true ∧
      c.isClosed = false ∧ c.options.onDelete = none ∧ c.clock = { unix := 0 } := by
    obtain ⟨_, _, rfl⟩ := Cache.create_eq_ok hc
    exact ⟨rfl, rfl, rfl, rfl, rfl⟩
  obtain ⟨d, hrun, h⟩ := turned hc hpos hlast (Nat.lt_of_succ_lt hn)
  obtain ⟨d', hturn, h', hshown⟩ :=
    h.turn hidle haccepts halive hsilent hlast hn (.ofMillis 10) (Or.inr hword)
  obtain ⟨recency, contents, expiry, rfl⟩ := h'.frame
  have hstamp : c.clock.stampAfter (.ofMillis 10) = some 10 := by
    rw [hclock]
    decide
  refine ⟨recency, contents, expiry, ?_, h'.slot, hstamp ▸ hshown, ?_⟩
  · unfold wearOut
    rw [run_append, hrun, hturn]
  · unfold Expiry.contains
    rw [Std.HashMap.contains_eq_isSome_getElem?]
    exact congrArg Option.isSome h'.absent

end System

end TimedCache
