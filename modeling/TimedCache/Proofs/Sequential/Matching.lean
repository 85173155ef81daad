import TimedCache.Proofs.Cache.Moves
import TimedCache.Proofs.Sequential.Aground
import TimedCache.Proofs.Sequential.Worker

/-!
A cache with nothing to do and the plain machine that it equals. What a caller asks for becomes one
operation of the worker, which brings both to equal states again. The plain machine is the machine
aground as long as its two lists have the same records. What does not depend on that is proved of
the machine aground.
-/

namespace TimedCache

open Reference (without)

namespace Cache

variable {V : Type}

/-- The worker is ready, nothing waits for it, and callers wait for it as long as it takes. -/
structure Idle (c : Cache V) : Prop where
  writes : c.writes.items = []
  batches : c.reads.sink.items = []
  fired : c.fired = []
  alive : c.isClosed = false
  awake : c.paused = false
  patient : c.stint = none

/-- The wheel stands at the last tick that has passed, far from the last one there is. -/
structure Timely (c : Cache V) : Prop where
  tick : c.expiry.timer.tick = max c.options.tick (.ofMillis 1)
  current : c.expiry.timer.wheel.current = c.clock.sinceStart / c.expiry.timer.tick.millis
  started : c.clock.sinceStart ≤ c.clock.unix
  early : c.clock.unix < 2 ^ 63

/-- Contents, list, timers, counters and log differ at most. -/
structure Beside (c c' : Cache V) : Prop where
  options : c'.options = c.options
  clock : c'.clock = c.clock
  writes : c'.writes = c.writes
  reads : c'.reads = c.reads
  fired : c'.fired = c.fired
  paused : c'.paused = c.paused
  stint : c'.stint = c.stint

variable {c c' : Cache V}

theorem Idle.beside (h : c.Idle) (hbeside : Beside c c') : c'.Idle where
  writes := by rw [hbeside.writes, h.writes]
  batches := by rw [hbeside.reads, h.batches]
  fired := by rw [hbeside.fired, h.fired]
  alive := by
    unfold isClosed
    rw [hbeside.writes]
    exact h.alive
  awake := by rw [hbeside.paused, h.awake]
  patient := by rw [hbeside.stint, h.patient]

theorem Idle.settle (h : c.Idle) : c.settle = c := by
  unfold Cache.settle Cache.catchUp backlog
  rw [h.awake, h.writes, h.batches, h.fired]
  rfl

theorem Idle.received_queued (h : c.Idle) (op : WriteOp) : (c.queued op).received [] = c := by
  have hwrites : ({ c.writes with items := [] } : Queue WriteOp) = c.writes := by
    rw [← h.writes]
  unfold received queued
  dsimp only
  rw [hwrites]

/-- A worker with nothing else to do applies an operation at once. -/
theorem Idle.work_queued (h : c.Idle) (op : WriteOp) : (c.queued op).work = c.apply op := by
  have hitems : (c.queued op).writes.items = [op] := by
    unfold queued
    dsimp only
    rw [h.writes]
    rfl
  rw [work_eq_workWrite (by simp [hitems]), workWrite_of_cons hitems, h.received_queued]

theorem Idle.applyWrites_queued (h : c.Idle) (op : WriteOp) :
    (c.queued op).applyWrites = c.apply op := by
  have hlength : (c.queued op).writes.items.length = 1 := by simp [queued, h.writes]
  unfold applyWrites
  rw [hlength, workSteps, workSteps, h.work_queued]

theorem Idle.settle_queued (h : c.Idle) (op : WriteOp) : (c.queued op).settle = c.apply op := by
  have hlength : (c.queued op).backlog = 1 := by
    simp [backlog, queued, h.writes, h.batches, h.fired]
  unfold Cache.settle catchUp
  rw [show (c.queued op).paused = false from h.awake, if_neg Bool.false_ne_true, hlength, workSteps,
    workSteps, h.work_queued]

theorem Timely.sinceStart_le (h : c.Timely) : c.clock.sinceStart ≤ c.clock.timestamp := by
  have hstarted := h.started
  have hearly := h.early
  unfold Clock.timestamp clampWord maxWord
  omega

theorem Timely.atLastTick (h : c.Timely) : c.expiry.atLastTick = false := by
  have hle := Nat.div_le_self c.clock.sinceStart c.expiry.timer.tick.millis
  have hstarted := h.started
  have hearly := h.early
  rw [← h.current] at hle
  apply decide_eq_false
  unfold maxWord
  omega

end Cache

/-- The cache has nothing to do at a time, having made so many entries. -/
structure Serves {V : Type} (o : Options V) (c : Cache V) (now : Clock) (made : Nat) : Prop where
  options : c.options = o
  idle : c.Idle
  timely : c.Timely
  clock : now = c.clock
  created : made = c.nextSerial
  room : c.writes.capacity = writeQueueCapacity
  capacity : c.recency.capacity = o.capacity

theorem Serves.beside {V : Type} {o : Options V} {c c' : Cache V} {now : Clock} {made made' : Nat}
    (h : Serves o c now made) (hbeside : c.Beside c')
    (htick : c'.expiry.timer.tick = c.expiry.timer.tick)
    (hcurrent : c'.expiry.timer.wheel.current = c.expiry.timer.wheel.current)
    (hmade : made' = c'.nextSerial) (hgrows : c.recency.Grows c'.recency) :
    Serves o c' now made' where
  options := hbeside.options.trans h.options
  idle := h.idle.beside hbeside
  timely := by
    constructor
    · rw [htick, hbeside.options, h.timely.tick]
    · rw [hcurrent, htick, hbeside.clock, h.timely.current]
    · rw [hbeside.clock]
      exact h.timely.started
    · rw [hbeside.clock]
      exact h.timely.early
  clock := by rw [hbeside.clock, h.clock]
  created := hmade
  room := by rw [hbeside.writes, h.room]
  capacity := hgrows.capacity.trans h.capacity

/-- Reads leave counters and notes behind, and the batch that they complete changes the list. -/
theorem Serves.noted {V : Type} {o : Options V} {c : Cache V} {now : Clock} {made : Nat}
    (h : Serves o c now made) (counters : Counters) {reads : ReadTracker}
    (hitems : reads.sink.items = []) {recency : Recency} (hgrows : c.recency.Grows recency) {c' : Cache V}
    (hc' : c' = { c with counters, reads, recency }) : Serves o c' now made := by
  subst hc'
  exact ⟨h.options, ⟨h.idle.writes, hitems, h.idle.fired, h.idle.alive, h.idle.awake, h.idle.patient⟩,
    ⟨h.timely.tick, h.timely.current, h.timely.started, h.timely.early⟩, h.clock, h.created, h.room,
    hgrows.capacity.trans h.capacity⟩

/-- A change without a read, of so many entries to so many, for which these callbacks are run. -/
structure Passes {V : Type} (c c' : Cache V) (made made' : Nat) (events : List (Event V)) :
    Prop where
  reads : c'.reads = c.reads
  created : made ≤ made'
  turns : c.recency.Turns c'.recency made
  log : c'.log.toList.Perm (c.log.toList ++ events)

/-! ## Two lists -/

namespace Aground

variable {V : Type}

/-- Contents, list and timers are those of the machine, but for timers that have fired. -/
structure Stands (o : Options V) (c : Cache V) (m : Aground V) (fired : List (TimerId × String)) :
    Prop where
  finds : Finds c.contents m.stored
  lists : Lists c.contents c.recency m.records
  rings : c.expiry.Rings fired o.expireDelay (c.clock.timestamp - c.clock.sinceStart)
      m.records
  clock : m.clock = c.clock

/-- A cache with nothing to do and the machine aground are in equal states, but for the notes. -/
structure Matches (o : Options V) (c : Cache V) (m : Aground V) : Prop
    extends Serves o c m.clock m.created, Stands o c m []

/-- A change without a read leads both to equal states again. -/
structure Goes (o : Options V) (c c' : Cache V) (m m' : Aground V) (events : List (Event V)) : Prop
    extends Passes c c' m.created m'.created events where
  ending : Matches o c' m'
  pending : m'.pending = m.pending

variable {o : Options V} {c c' : Cache V} {m m' : Aground V}

theorem Matches.beside (h : Matches o c m) (hbeside : c.Beside c')
    (hfinds : Finds c'.contents m'.stored) (hlists : Lists c'.contents c'.recency m'.records)
    (hrings : c'.expiry.Rings [] o.expireDelay (c.clock.timestamp - c.clock.sinceStart)
      m'.records)
    (htick : c'.expiry.timer.tick = c.expiry.timer.tick)
    (hcurrent : c'.expiry.timer.wheel.current = c.expiry.timer.wheel.current)
    (hclock : m'.clock = m.clock) (hcreated : m'.created = c'.nextSerial)
    (hgrows : c.recency.Grows c'.recency) : Matches o c' m' where
  toServes := hclock ▸ h.toServes.beside hbeside htick hcurrent hcreated hgrows
  finds := hfinds
  lists := hlists
  rings := by
    rw [hbeside.clock]
    exact hrings

theorem Matches.refl (h : Matches o c m) : Goes o c c m m [] :=
  ⟨⟨rfl, Nat.le_refl _, (Recency.Frees.refl c.recency).turns _, by simp⟩, h, rfl⟩

/-- A caller who deletes a key has the worker unlink the entry that had its slot, if it was linked. -/
theorem Matches.remove (h : Matches o c m) (htame : o.Tame) {r : Record V} (hr : r ∈ m.stored) :
    Goes o c (({ c with contents := (c.contents.takeKey r.key).2 } : Cache V).apply
      (.delete r.serial)) m
        { m with stored := without m.stored r.serial, records := without m.records r.serial }
        (r.told o.onDelete .deleted) := by
  obtain rfl := h.options
  let d : Cache V := { c with contents := (c.contents.takeKey r.key).2 }
  change Goes c.options c (d.bury r.serial) m _ _
  have hentries (s : Serial) : d.contents.entry? s = c.contents.entry? s :=
    Contents.entry?_takeKey c.contents r.key s
  have hkeyed : d.contents.WellKeyed := h.finds.wellKeyed.takeKey r.key
  have hvacated : d.contents.Vacated (d.removed r.serial).contents (some r.serial) :=
    Recency.remove_vacated hkeyed d.recency r.serial
  have htaken := h.finds.wellKeyed.vacated_takeKey r.key
  rw [h.finds.occupant hr] at htaken
  have hfinds := h.finds.lost (htaken.trans_self hvacated)
  have hbefore : Lists c.contents d.recency m.records := h.lists
  obtain ⟨_, hlists⟩ := hbefore.remove hkeyed hentries r.serial
  have hshown : (d.removed r.serial).contents.Shows r := by
    refine (hvacated.shown r.serial).trans ?_
    rw [Contents.shown?_takeKey]
    exact h.finds.shown r hr
  have hmade : (d.removed r.serial).nextSerial = c.nextSerial :=
    hvacated.size_entries.trans (congrArg Array.size (Contents.entries_takeKey c.contents r.key))
  have hsame (other : Record V) (hother : other ∈ m.records) (heq : other.serial = r.serial) :
      other.key = r.key := by
    have hname := h.lists.named other hother
    rw [heq, h.finds.named hr] at hname
    exact (Option.some.inj hname).symm
  have hrings := h.rings.lost h.lists.keyed hsame
  obtain ⟨htick, hcurrent⟩ := c.expiry.removeOwned_frame r.key r.serial
  obtain ⟨order, hkeeps⟩ := hbefore.chained
  have hfrees := (hkeeps.of_entries_eq hentries).frees_remove r.serial
  have hgrows := Recency.grows_remove d.recency d.contents r.serial
  rw [Cache.bury_of_shown hshown htame]
  dsimp only [Cache.removed] at hmade ⊢
  refine ⟨⟨rfl, Nat.le_refl _, hfrees.turns _, by simp [d]⟩, ?_, rfl⟩
  exact h.beside ⟨rfl, rfl, rfl, rfl, rfl, rfl, rfl⟩ hfinds hlists hrings htick hcurrent rfl
    (h.created.trans hmade.symm) hgrows

theorem Matches.wipe (h : Matches o c m) :
    Goes o c (c.apply .clear) m { m with records := [], stored := [] } [] := by
  have hmade : c.wipe.nextSerial = c.nextSerial :=
    (Recency.clear_vacated h.finds.wellKeyed c.recency).size_entries
  refine ⟨⟨rfl, Nat.le_refl _, (Recency.frees_clear c.recency c.contents).turns _, ?_⟩, ?_, rfl⟩
  swap
  · exact h.beside ⟨rfl, rfl, rfl, rfl, rfl, rfl, rfl⟩ (.of_cleared _) h.lists.clear h.rings.clear rfl
      rfl rfl (h.created.trans hmade.symm) (Recency.grows_clear c.recency c.contents)
  · simp [Cache.apply, Cache.wipe]

end Aground

/-! ## One list -/

/-- A cache with nothing to do and the plain machine are in equal states, but for the notes. -/
structure Matches {V : Type} (o : Options V) (c : Cache V) (m : Reference V) : Prop
    extends Serves o c m.clock m.created where
  holds : Holds c.contents c.recency m.records
  rings : c.expiry.Rings [] o.expireDelay (c.clock.timestamp - c.clock.sinceStart)
      m.records

/-- A change without a read leads both to equal states again. -/
structure Goes {V : Type} (o : Options V) (c c' : Cache V) (m m' : Reference V)
    (events : List (Event V)) : Prop extends Passes c c' m.created m'.created events where
  ending : Matches o c' m'
  pending : m'.pending = m.pending

namespace Matches

variable {V : Type} {o : Options V} {c c' : Cache V} {m m' : Reference V}

theorem aground (h : Matches o c m) : Aground.Matches o c m.aground :=
  { h with finds := h.holds.toFinds, lists := h.holds.lists }

theorem of_aground (h : Aground.Matches o c m.aground) : Matches o c m :=
  { h with holds := .of_lists h.finds h.lists }

theorem beside (h : Matches o c m) (hbeside : c.Beside c')
    (hholds : Holds c'.contents c'.recency m'.records)
    (hrings : c'.expiry.Rings [] o.expireDelay (c.clock.timestamp - c.clock.sinceStart)
      m'.records)
    (htick : c'.expiry.timer.tick = c.expiry.timer.tick)
    (hcurrent : c'.expiry.timer.wheel.current = c.expiry.timer.wheel.current)
    (hclock : m'.clock = m.clock) (hcreated : m'.created = c'.nextSerial)
    (hgrows : c.recency.Grows c'.recency) : Matches o c' m' where
  toServes := hclock ▸ h.toServes.beside hbeside htick hcurrent hcreated hgrows
  holds := hholds
  rings := by
    rw [hbeside.clock]
    exact hrings

/-- What is stored now does not end before. -/
theorem le_end_of_stampAfter (clock : Clock) (ttl delay : Span) {stamp : Nat}
    (h : clock.stampAfter ttl = some stamp) : clock.timestamp ≤ satAdd stamp delay.millis := by
  unfold Clock.stampAfter at h
  split at h
  · cases h
  · cases h
    exact (le_satAdd_left clock.timestamp_le _).trans (le_satAdd_left (satAdd_le _ _) _)

/-- A caller who overwrites an entry has the worker move it to the front and renew its timer. -/
theorem update (h : Matches o c m) {r : Record V} (hr : r ∈ m.records) (value : V) (ttl : Span)
    (hfits : (({ c with contents := c.overwritten r.serial value ttl } : Cache V).apply
      (.update r.serial)).recency.Fitting) :
    Goes o c (({ c with contents := c.overwritten r.serial value ttl } : Cache V).apply
      (.update r.serial)) m
      { m with records :=
          { r with value, stamp := c.clock.stampAfter ttl } :: without m.records r.serial } [] := by
  obtain rfl := h.options
  let r' : Record V := { r with value, stamp := c.clock.stampAfter ttl }
  let d : Cache V := { c with contents := c.overwritten r.serial value ttl }
  change (d.upsert r.serial).recency.Fitting at hfits
  change Goes c.options c (d.upsert r.serial) m { m with records := r' :: without m.records r.serial } []
  rw [(Cache.upsert_aside d r.serial).recency] at hfits
  obtain ⟨hnone, hholds⟩ := h.holds.overwrite hr value (c.clock.stampAfter ttl) hfits
  have hlast := h.timely.atLastTick
  have hupsert : d.upsert r.serial = d.timed r.serial := by
    rw [Cache.upsert_eq, show (d.recency.add d.contents r.serial).1 = none from hnone]
  have htimed := Cache.timed_eq (c := d) (r := r') hholds List.mem_cons_self hlast
  obtain ⟨htick, hcurrent⟩ := c.expiry.renew_frame c.clock r.key r.serial
    (r'.stamp.map fun stamp => satAdd stamp c.options.expireDelay.millis)
  have hmem (other : Record V) : other ∈ r' :: without m.records r.serial ↔
      other = r' ∨ (other ∈ m.records ∧ other.key ≠ r'.key) := by
    rw [List.mem_cons, h.holds.mem_without hr]
  have hrings := h.rings.renew List.not_mem_nil hlast rfl h.timely.sinceStart_le
    (fun stamp => le_end_of_stampAfter c.clock ttl c.options.expireDelay) hmem
  have hkept := c.contents.nodesKept_overwrite r.serial value (c.clock.stampAfter ttl)
  have hgrows := Recency.grows_add c.recency (c.overwritten r.serial value ttl) r.serial
  have hkeyed := h.holds.wellKeyed.modify r.serial (·.overwrite value (c.clock.stampAfter ttl))
    fun e => e.key_overwrite value (c.clock.stampAfter ttl)
  have hmade := (Recency.add_vacated hkeyed c.recency r.serial).1.size_entries
  have hlisted : r.serial ∈ c.recency.toList := by
    rw [h.holds.listed]
    exact List.mem_map_of_mem hr
  obtain ⟨order, hkeeps⟩ := h.holds.chained
  have hfrees := (hkeeps.of_nodesKept hkept).frees_add hlisted
  rw [hupsert, htimed]
  refine ⟨⟨rfl, Nat.le_refl _, hfrees.turns _, by simp [Cache.added, d]⟩, ?_, rfl⟩
  refine h.beside ⟨rfl, rfl, rfl, rfl, rfl, rfl, rfl⟩ hholds hrings htick hcurrent rfl ?_ hgrows
  rw [Contents.size_entries_modify] at hmade
  exact h.created.trans hmade.symm

/-- A key that no record has leads the plain machine to a new record, for which the last one of a
full list gives way. -/
theorem store_of_new (h : Matches o c m) {key : String} (hkey : ∀ r ∈ m.records, r.key ≠ key)
    (value : V) (ttl : Span) :
    m.store o key value ttl =
      if 0 < o.capacity ∧ o.capacity ≤ m.records.length then
        (m.records.getLast?.toList.flatMap (·.told o.onDelete .evicted),
          { m with
            records := ⟨c.nextSerial, key, value, c.clock.stampAfter ttl⟩ :: m.records.dropLast
            created := m.created + 1 })
      else
        ([], { m with
            records := ⟨c.nextSerial, key, value, c.clock.stampAfter ttl⟩ :: m.records
            created := m.created + 1 }) := by
  unfold Reference.store
  rw [Reference.find?_eq_none_iff.mpr hkey, h.clock, h.created]

/-- What the worker links for a new key: one more serial is given out, the records there were are
shown as before, and the new one took its turn. -/
theorem added_new (h : Matches o c m) (key : String) (value : V) (ttl : Span)
    (hfits : (({ c with contents := (c.created key value ttl).place c.nextSerial } : Cache V).added
      c.nextSerial).recency.nodes.size < Recency.maxPlaces) :
    (({ c with contents := (c.created key value ttl).place c.nextSerial } : Cache V).added
        c.nextSerial).nextSerial = c.nextSerial + 1 ∧
      (∀ r ∈ m.records,
        (({ c with contents := (c.created key value ttl).place c.nextSerial } : Cache V).added
          c.nextSerial).contents.Shows r) ∧
      c.recency.Turns
        (({ c with contents := (c.created key value ttl).place c.nextSerial } : Cache V).added
          c.nextSerial).recency m.created := by
  let d : Cache V := { c with contents := (c.created key value ttl).place c.nextSerial }
  have hkeyed := (h.holds.wellKeyed.create key value (c.clock.stampAfter ttl)).place c.nextSerial
  have hvacated := (Recency.add_vacated hkeyed c.recency c.nextSerial).1
  refine ⟨?_, ?_, ?_⟩
  · refine hvacated.size_entries.trans ?_
    rw [Contents.entries_place, Contents.size_entries_create]
    rfl
  · intro r hr
    have hslot := h.holds.occupant hr
    refine (hvacated.shown r.serial).trans ?_
    rw [Contents.shown?_place, h.holds.wellKeyed.shown?_create key value _ hslot]
    exact h.holds.shown r hr
  · obtain ⟨order, hkeeps⟩ := h.holds.chained
    have hkept := (hkeeps.of_nodesKept
      (c.contents.nodesKept_create key value (c.clock.stampAfter ttl))).of_entries_eq
        fun t => Contents.entry?_place (c.created key value ttl) c.nextSerial t
    rw [h.created]
    exact hkept.turns_add c.nextSerial hfits

/-- A caller who stores a new entry has the worker link it; the last one of a full list gives way. -/
theorem insert (h : Matches o c m) (htame : o.Tame) {key : String}
    (hkey : ∀ r ∈ m.records, r.key ≠ key) (value : V) (ttl : Span)
    (hfits : (({ c with contents := (c.created key value ttl).place c.nextSerial } : Cache V).apply
      (.set c.nextSerial)).recency.Fitting) :
    Goes o c (({ c with contents := (c.created key value ttl).place c.nextSerial } : Cache V).apply
      (.set c.nextSerial)) m (m.store o key value ttl).2 (m.store o key value ttl).1 := by
  obtain rfl := h.options
  let r' : Record V :=
    { serial := c.nextSerial, key, value, stamp := c.clock.stampAfter ttl }
  let d : Cache V := { c with contents := (c.created key value ttl).place c.nextSerial }
  change (d.upsert c.nextSerial).recency.Fitting at hfits
  change Goes c.options c (d.upsert r'.serial) m _ _
  rw [(Cache.upsert_aside d c.nextSerial).recency] at hfits
  obtain ⟨hgone, hholds⟩ := h.holds.insert hkey value (c.clock.stampAfter ttl) rfl hfits
  obtain ⟨_, hkeeps⟩ := hholds.chained
  obtain ⟨hmade, hshown, hturns⟩ := h.added_new key value ttl hkeeps.fits
  change c.recency.Turns (d.added c.nextSerial).recency m.created at hturns
  have hlast := h.timely.atLastTick
  have htimed := Cache.timed_eq (c := d) (r := r') hholds List.mem_cons_self hlast
  obtain ⟨htick, hcurrent⟩ := c.expiry.renew_frame c.clock key c.nextSerial
    (r'.stamp.map fun stamp => satAdd stamp c.options.expireDelay.millis)
  have hmem (other : Record V) : other ∈ r' :: m.records ↔
      other = r' ∨ (other ∈ m.records ∧ other.key ≠ r'.key) := by
    rw [List.mem_cons]
    exact or_congr_right ⟨fun hr => ⟨hr, hkey other hr⟩, And.left⟩
  have hrings := h.rings.renew List.not_mem_nil hlast rfl h.timely.sinceStart_le
    (fun stamp => le_end_of_stampAfter c.clock ttl c.options.expireDelay) hmem
  have hgrows := Recency.grows_add c.recency d.contents c.nextSerial
  have hcreated : m.created + 1 = (d.added c.nextSerial).nextSerial :=
    (congrArg (· + 1) h.created).trans hmade.symm
  rw [h.store_of_new hkey value ttl, Cache.upsert_eq]
  rw [h.capacity] at hgone hholds
  change (d.recency.add d.contents r'.serial).1 = _ at hgone
  by_cases hfull : 0 < c.options.capacity ∧ c.options.capacity ≤ m.records.length
  · rw [if_pos hfull] at hgone hholds ⊢
    obtain ⟨front, last, hrecords⟩ : ∃ front last, m.records = front ++ [last] := by
      refine (List.eq_nil_or_concat' m.records).resolve_left ?_
      intro hnil
      rw [hnil, List.length_nil] at hfull
      omega
    have hin : last ∈ m.records := by simp [hrecords]
    have hfinds := h.holds.toFinds.insert hkey value (c.clock.stampAfter ttl)
    have hlink := List.mem_cons_of_mem r' hin
    have hleft := hrings.lost hfinds.keyed fun other hother => (hfinds.serial_eq_iff hlink hother).mp
    have hfront : without (r' :: m.records) last.serial = r' :: front := by
      have hserials := hfinds.serials
      rw [hrecords] at hserials ⊢
      have hmiddle : without ((r' :: front) ++ last :: []) last.serial = (r' :: front) ++ [] :=
        Reference.without_middle hserials
      exact hmiddle.trans (List.append_nil _)
    rw [hfront] at hleft
    obtain ⟨htick', hcurrent'⟩ := (c.expiry.renew c.clock key c.nextSerial
      (r'.stamp.map fun stamp => satAdd stamp c.options.expireDelay.millis)).removeOwned_frame
        last.key last.serial
    have halive : (d.timed r'.serial).isClosed = false := by
      rw [htimed]
      exact h.idle.alive
    have hshown' : (d.timed r'.serial).contents.Shows last := by
      rw [htimed]
      exact hshown last hin
    have htame' : (d.timed r'.serial).options.Tame := by
      rw [htimed]
      exact htame
    rw [hrecords] at hgone hholds ⊢
    rw [List.getLast?_concat] at hgone ⊢
    rw [List.dropLast_concat] at hholds ⊢
    rw [hgone, Option.map_some]
    dsimp only
    rw [halive, if_neg Bool.false_ne_true, Cache.retire_eq hshown' htame', htimed]
    refine ⟨⟨rfl, Nat.le_succ _, hturns, by simp [Cache.added, d]⟩, ?_, rfl⟩
    exact h.beside ⟨rfl, rfl, rfl, rfl, rfl, rfl, rfl⟩ hholds hleft (htick'.trans htick)
      (hcurrent'.trans hcurrent) rfl hcreated hgrows
  · rw [if_neg hfull] at hgone hholds ⊢
    rw [hgone, htimed]
    refine ⟨⟨rfl, Nat.le_succ _, hturns, by simp [Cache.added, d]⟩, ?_, rfl⟩
    exact h.beside ⟨rfl, rfl, rfl, rfl, rfl, rfl, rfl⟩ hholds hrings htick hcurrent rfl hcreated hgrows

end Matches

theorem Goes.of_aground {V : Type} {o : Options V} {c c' : Cache V} {m m' : Reference V}
    {events : List (Event V)} (h : Aground.Goes o c c' m.aground m'.aground events) :
    Goes o c c' m m' events :=
  ⟨h.toPasses, .of_aground h.ending, h.pending⟩

end TimedCache
