import TimedCache.Proofs.Sequential.Matching

/-!
Calls that store, delete, clear and read. A caller that waits and one that does not leave the same
state behind once the worker is idle again. A read leaves a note; the note that completes a batch
has the worker apply them all.
-/

namespace TimedCache

namespace Cache

variable {V : Type} {c : Cache V}

theorem Idle.apply (h : c.Idle) (htame : c.options.Tame) (hlast : c.expiry.atLastTick = false)
    (op : WriteOp) : (c.apply op).Idle := by
  have halive := (c.isClosed_apply op htame hlast).trans h.alive
  have hsame : (c.drawn op).writes = c.writes ∧ (c.drawn op).reads = c.reads ∧
      (c.drawn op).fired = c.fired ∧ (c.drawn op).paused = c.paused ∧
      (c.drawn op).stint = c.stint := by
    cases op <;> exact ⟨rfl, rfl, rfl, rfl, rfl⟩
  obtain ⟨hwrites, hreads, hfired, hpaused⟩ := (c.apply_aside op).queues_of_alive halive
  obtain ⟨hwrites', hreads', hfired', hpaused', hstint'⟩ := hsame
  refine ⟨?_, ?_, ?_, halive, ?_, ?_⟩
  · rw [hwrites, hwrites', h.writes]
  · rw [hreads, hreads', h.batches]
  · rw [hfired, hfired', h.fired]
  · rw [hpaused, hpaused', h.awake]
  · rw [(c.apply_aside op).stint, hstint', h.patient]

theorem Idle.waits (h : c.Idle) (wait : Bool) : c.waits wait = wait := by
  unfold Cache.waits
  rw [h.awake, h.alive]
  simp

theorem Idle.accepts (h : c.Idle) (hroom : c.writes.capacity = writeQueueCapacity) (wait : Bool) :
    c.accepts wait = true := by
  have hempty : c.writes.isFull = false := by
    unfold Queue.isFull
    rw [hroom, h.writes]
    rfl
  unfold Cache.accepts
  rw [h.alive, hempty]
  simp

theorem Idle.findsRoom (h : c.Idle) : c.findsRoom = true := by
  unfold Cache.findsRoom
  rw [h.patient]
  rfl

/-- A caller that waits has its operation applied, and one that does not leaves it queued. -/
theorem Idle.attend_queued (h : c.Idle) (op : WriteOp) (wait : Bool) :
    (c.queued op).attend wait = if wait then c.apply op else c.queued op := by
  have hwaits : (c.queued op).waits wait = wait := h.waits wait
  unfold attend
  dsimp only
  rw [hwaits, show (c.queued op).stint = none from h.patient]
  cases wait with
  | true => exact h.applyWrites_queued op
  | false => rfl

/-- Whether or not a caller waits, the worker has applied its operation in the end. -/
theorem Idle.settle_attend (h : c.Idle) (htame : c.options.Tame)
    (hlast : c.expiry.atLastTick = false) (op : WriteOp) (wait : Bool) :
    ((c.queued op).attend wait).settle = c.apply op := by
  rw [h.attend_queued]
  cases wait with
  | true => exact (h.apply htame hlast op).settle
  | false => exact h.settle_queued op

theorem store_of_lodge {key : String} {value : V} {ttl : Span} {wait : Bool} {d : Cache V}
    {op : WriteOp} (hlodge : c.lodge key value ttl wait = (true, d.queued op))
    (hd : d.Idle) (htame : d.options.Tame) (hlast : d.expiry.atLastTick = false) :
    (c.store key value ttl wait).1 = true ∧ (c.store key value ttl wait).2.settle = d.apply op := by
  have hdone := hd.apply htame hlast op
  rw [store_eq, hlodge]
  refine ⟨?_, hd.settle_attend htame hlast op wait⟩
  dsimp only
  rw [hd.attend_queued]
  cases wait with
  | true =>
    unfold submission
    rw [if_pos rfl, hdone.writes, hdone.alive]
    rfl
  | false => rfl

end Cache

namespace Serves

variable {V : Type} {o : Options V} {c : Cache V} {now : Clock} {made : Nat}

/-- However a caller deletes a key, the worker has unlinked the entry in the end. -/
theorem settle_delete (h : Serves o c now made) (htame : o.Tame) (key : String) :
    (c.delete key).settle = match c.contents.occupant? key with
      | some s => ({ c with contents := (c.contents.takeKey key).2 } : Cache V).apply (.delete s)
      | none => c := by
  obtain rfl := h.options
  unfold Cache.delete
  rw [Cache.detach_eq]
  cases hs : c.contents.occupant? key with
  | some s =>
    let d : Cache V := { c with contents := (c.contents.takeKey key).2 }
    have hd : d.Idle := h.idle.beside ⟨rfl, rfl, rfl, rfl, rfl, rfl, rfl⟩
    have hsend : d.sendDelete s = (true, d.queued (.delete s)) := by
      unfold Cache.sendDelete
      rw [Cache.send_eq, hd.alive]
      rfl
    have hroom : (d.waits true && d.findsRoom) = true := by
      rw [hd.waits, hd.findsRoom]
      rfl
    dsimp only
    split
    · rw [Cache.handIn_of_room hroom]
      exact hd.settle_attend htame h.timely.atLastTick (.delete s) true
    · rw [hsend]
      exact hd.settle_queued (.delete s)
  | none =>
    rw [Contents.takeKey_of_vacant hs]
    exact h.idle.settle

theorem settle_await (h : Serves o c now made) (htame : o.Tame) (op : WriteOp) :
    (c.await op).settle = c.apply op := by
  obtain rfl := h.options
  unfold Cache.await
  rw [Cache.send_eq, h.idle.alive, if_neg Bool.false_ne_true]
  dsimp only
  rw [show (c.queued op).paused = false from h.idle.awake, if_neg Bool.false_ne_true,
    h.idle.applyWrites_queued]
  exact (h.idle.apply htame h.timely.atLastTick op).settle

end Serves

namespace Matches

variable {V : Type} {o : Options V} {c : Cache V} {m : Reference V}

theorem store (h : Matches o c m) (htame : o.Tame) (key : String) (value : V) (ttl : Span)
    (wait : Bool)
    (hfits : (c.store key value ttl wait).2.settle.recency.Fitting) :
    (c.store key value ttl wait).1 = true ∧
      Goes o c (c.store key value ttl wait).2.settle m (m.store o key value ttl).2
        (m.store o key value ttl).1 := by
  obtain rfl := h.options
  have haccepts := h.idle.accepts h.room wait
  have hidle (contents : Contents V) : ({ c with contents } : Cache V).Idle :=
    h.idle.beside ⟨rfl, rfl, rfl, rfl, rfl, rfl, rfl⟩
  cases hfind : Reference.find? m.records key with
  | some r =>
    obtain ⟨hr, rfl⟩ := (Reference.find?_eq_some_iff h.holds.keyed).mp hfind
    have hlodge := Cache.lodge_of_occupant (h.holds.occupant hr) value ttl wait
    rw [haccepts, if_pos rfl] at hlodge
    obtain ⟨hfst, hsettle⟩ := Cache.store_of_lodge hlodge (hidle _) htame h.timely.atLastTick
    rw [hsettle] at hfits ⊢
    refine ⟨hfst, ?_⟩
    have hstamp : m.clock.stampAfter ttl = c.clock.stampAfter ttl := by rw [h.clock]
    unfold Reference.store
    rw [hfind, hstamp]
    exact h.update hr value ttl hfits
  | none =>
    have hkey := Reference.find?_eq_none_iff.mp hfind
    have hlodge := Cache.lodge_of_vacant (h.holds.vacant hkey) value ttl wait
    rw [haccepts, if_pos rfl] at hlodge
    obtain ⟨hfst, hsettle⟩ := Cache.store_of_lodge hlodge (hidle _) htame h.timely.atLastTick
    rw [hsettle] at hfits ⊢
    exact ⟨hfst, h.insert htame hkey value ttl hfits⟩

/-- A caller who deletes a key leaves nothing to the worker in the end but the entry to unlink. -/
theorem delete (h : Matches o c m) (htame : o.Tame) (key : String) :
    Goes o c (c.delete key).settle m (m.delete o key).2 (m.delete o key).1 := by
  rw [h.toServes.settle_delete htame]
  unfold Reference.delete
  cases hfind : Reference.find? m.records key with
  | some r =>
    obtain ⟨hr, rfl⟩ := (Reference.find?_eq_some_iff h.holds.keyed).mp hfind
    rw [h.holds.occupant hr]
    exact .of_aground (h.aground.remove htame hr)
  | none =>
    rw [h.holds.vacant (Reference.find?_eq_none_iff.mp hfind)]
    exact .of_aground h.aground.refl

end Matches

namespace ReadTracker

variable {t : ReadTracker} {notes : Array Handle}

/-- With a single stripe and nothing in the sink, the note that completes a batch empties it. -/
theorem record_eq (hstripes : t.stripes = #[notes]) (hitems : t.sink.items = [])
    (hclosed : t.sink.closed = false) (hroom : 0 < t.sink.capacity) (place : Handle) :
    t.record 0 place =
      if notes.size + 1 < t.batchSize then { t with stripes := #[notes.push place] }
      else { t with
        stripes := #[#[]], sink := { t.sink with items := [notes.toList ++ [place]] } } := by
  have hnote : t.note 0 place = { t with stripes := #[notes.push place] } := by
    unfold note stripeOf
    rw [hstripes]
    rfl
  have hoffer (batch : List Handle) :
      t.sink.offer batch = (true, { t.sink with items := [batch] }) := by
    simp [Queue.offer, Queue.isFull, hclosed, hitems, Nat.not_le.mpr hroom]
  unfold record
  rw [hnote]
  unfold gathered stripeOf
  simp only [List.size_toArray, List.length_cons, List.length_nil, Nat.zero_mod,
    List.getElem?_toArray, List.getElem?_cons_zero, Option.getD_some, Array.size_push]
  split
  · rfl
  · unfold flush emptied stripeOf
    simp [hoffer]

end ReadTracker

/-- A worker with nothing else to do applies a batch of notes. -/
theorem Cache.settle_of_batch {V : Type} {c : Cache V} {batch : List Handle}
    (hwrites : c.writes.items = []) (hitems : c.reads.sink.items = [batch]) (hfired : c.fired = [])
    (hawake : c.paused = false) :
    c.settle = { c with
      reads := { c.reads with sink := { c.reads.sink with items := [] } }
      recency := c.recency.hitAll batch } := by
  have hlength : c.backlog = 1 := by simp [backlog, hwrites, hitems, hfired]
  have hsettle : c.settle = c.work := by
    unfold settle catchUp
    rw [hawake, if_neg Bool.false_ne_true, hlength, workSteps, workSteps]
  rw [hsettle, work_eq_workRead hwrites (by simp [hitems])]
  unfold workRead ReadTracker.receive? Queue.receive?
  rw [hitems]
  rfl

/-- The notes that wait for their batch are those of the pending reads. -/
structure Noted (reads : ReadTracker) (recency : Recency) (batch made : Nat)
    (pending : List Serial) : Prop where
  stripes : ∃ notes : Array Handle, reads.stripes = #[notes] ∧
    List.Forall₂ (fun place s => recency.Names place s ∧ s < made) notes.toList pending
  batchSize : reads.batchSize = batch
  waiting : pending.length < batch
  listening : reads.sink.closed = false
  sinkRoom : reads.sink.capacity = readQueueCapacity

/-- A read is noted, and the batch that it completes is applied. -/
theorem Noted.record {V : Type} {o : Options V} {c : Cache V} {now : Clock} {batch made : Nat}
    {pending : List Serial} (h : Noted c.reads c.recency batch made pending)
    (hserves : Serves o c now made) {s : Serial} {place : Handle} (hname : c.recency.Names place s)
    (hmade : s < made) (counters : Counters) {c' : Cache V}
    (hc' : ({ c with counters, reads := c.reads.record 0 place } : Cache V).settle = c') :
    if pending.length + 1 < batch then
      ∃ reads, c' = { c with counters, reads } ∧ reads.sink.items = [] ∧
        Noted reads c.recency batch made (pending ++ [s])
    else
      ∃ reads places, c' = { c with counters, reads, recency := c.recency.hitAll places } ∧
        reads.sink.items = [] ∧ List.Forall₂ c.recency.Names places (pending ++ [s]) ∧
        Noted reads (c.recency.hitAll places) batch made [] := by
  obtain ⟨notes, hstripes, hnames⟩ := h.stripes
  have hidle := hserves.idle
  have hlength : pending.length = notes.size := hnames.length_eq.symm.trans Array.length_toList
  have hall : List.Forall₂ (fun place s => c.recency.Names place s ∧ s < made)
      (notes.toList ++ [place]) (pending ++ [s]) :=
    List.rel_append hnames (.cons ⟨hname, hmade⟩ .nil)
  have hrecord := ReadTracker.record_eq hstripes hidle.batches h.listening
    (by rw [h.sinkRoom]; decide) place
  subst hc'
  rw [hrecord, hlength, ← h.batchSize]
  by_cases hwaiting : notes.size + 1 < c.reads.batchSize
  · rw [if_pos hwaiting, if_pos hwaiting]
    have hwaits : ({ c with counters, reads := { c.reads with stripes := #[notes.push place] } } :
        Cache V).Idle :=
      ⟨hidle.writes, hidle.batches, hidle.fired, hidle.alive, hidle.awake, hidle.patient⟩
    refine ⟨_, hwaits.settle, hidle.batches, ⟨_, rfl, ?_⟩, rfl, ?_, h.listening, h.sinkRoom⟩
    · rw [Array.toList_push]
      exact hall
    · rw [List.length_append, List.length_singleton, hlength]
      exact hwaiting
  · rw [if_neg hwaiting, if_neg hwaiting]
    refine ⟨_, _, Cache.settle_of_batch hidle.writes rfl hidle.fired hidle.awake, rfl,
      hall.imp fun _ _ => And.left, ⟨#[], rfl, .nil⟩, rfl, ?_, h.listening, h.sinkRoom⟩
    exact h.batchSize ▸ Nat.zero_lt_of_lt h.waiting

/-- Unless generations start anew, a change without a read keeps the meaning of the notes. -/
theorem Noted.passes {V : Type} {c c' : Cache V} {batch made made' : Nat} {pending : List Serial}
    {events : List (Event V)} (h : Noted c.reads c.recency batch made pending)
    (hchained : ∃ order, c.recency.Keeps c.contents order)
    (hchained' : ∃ order, c'.recency.Keeps c'.contents order)
    (hpasses : Passes c c' made made' events) (hrises : c.recency.Rises c'.recency) :
    Noted c'.reads c'.recency batch made' pending := by
  obtain ⟨notes, hstripes, hnames⟩ := h.stripes
  obtain ⟨order, hkeeps⟩ := hchained
  obtain ⟨order', hkeeps'⟩ := hchained'
  rw [hpasses.reads]
  refine ⟨⟨notes, hstripes, hnames.imp ?_⟩, h.batchSize, h.waiting, h.listening, h.sinkRoom⟩
  rintro place s ⟨hname, hlt⟩
  refine ⟨?_, Nat.lt_of_lt_of_le hlt hpasses.created⟩
  exact hname.turns hkeeps hkeeps' hpasses.turns (Nat.ne_of_lt hlt) hrises

/-- What a reader finds of some records, and what is noted of it. -/
theorem Finds.getWithStatus {V : Type} {c : Cache V} {records : List (Record V)}
    (h : Finds c.contents records) (key : String) :
    ∃ counters, c.getWithStatus key =
      match Reference.find? records key with
      | none => ((none, .notExist), { c with counters })
      | some r =>
        match r.statusAt c.clock.timestamp c.options.expireDelay with
        | .notExist => ((none, .notExist), { c with counters })
        | status => ((some r.value, status), { c with
            counters, reads := (c.contents.handle? r.serial).elim c.reads (c.reads.record 0) }) := by
  unfold Cache.getWithStatus Contents.occupantEntry?
  cases hfind : Reference.find? records key with
  | none =>
    rw [h.vacant (Reference.find?_eq_none_iff.mp hfind)]
    exact ⟨_, rfl⟩
  | some r =>
    obtain ⟨hr, rfl⟩ := (Reference.find?_eq_some_iff h.keyed).mp hfind
    obtain ⟨e, he, _, hvalue, hstamp⟩ := (h.shown r hr).entry
    have hstatus : e.statusAt c.clock.timestamp c.options.expireDelay =
        r.statusAt c.clock.timestamp c.options.expireDelay := by
      cases hend : r.stamp <;> simp [Entry.statusAt, Record.statusAt, hstamp, hend]
    have hnote (counters : Counters) : ({ c with counters } : Cache V).noteRead e =
        { c with counters, reads := (c.contents.handle? r.serial).elim c.reads (c.reads.record 0) } := by
      unfold Cache.noteRead Contents.handle?
      rw [he, Option.bind_some]
      cases e.handle? <;> rfl
    rw [h.occupant hr, Option.bind_some, he]
    dsimp only
    rw [hstatus, hvalue]
    cases r.statusAt c.clock.timestamp c.options.expireDelay with
    | notExist => exact ⟨_, rfl⟩
    | exist | expired => exact ⟨_, Prod.ext rfl (hnote _)⟩

/-! ## Two lists -/

namespace Aground

variable {V : Type} {o : Options V} {c c' : Cache V} {m m' : Aground V}

/-- A cache with nothing to do and the machine aground are in equal states. -/
structure Mirrors (o : Options V) (c : Cache V) (m : Aground V) : Prop
    extends Matches o c m, Noted c.reads c.recency (max o.readBatch 1) m.created m.pending

namespace Mirrors

theorem of_goes (h : Mirrors o c m) {events : List (Event V)} (hgoes : Goes o c c' m m' events)
    (hrises : c.recency.Rises c'.recency) : Mirrors o c' m' where
  toMatches := hgoes.ending
  toNoted := by
    rw [hgoes.pending]
    exact h.toNoted.passes h.lists.chained hgoes.ending.lists.chained hgoes.toPasses hrises

theorem counted (h : Mirrors o c m) (counters : Counters) :
    Mirrors o ({ c with counters } : Cache V).settle m ∧
      c.recency.Frees ({ c with counters } : Cache V).settle.recency ∧
      ({ c with counters } : Cache V).settle.log = c.log := by
  have hbeside : c.Beside { c with counters } := ⟨rfl, rfl, rfl, rfl, rfl, rfl, rfl⟩
  rw [(h.idle.beside hbeside).settle]
  refine ⟨⟨?_, h.toNoted⟩, .refl _, rfl⟩
  exact h.toMatches.beside hbeside h.finds h.lists h.rings rfl rfl rfl h.created (.refl _)

/-- A read is noted if the entry is linked, and the batch that it completes is applied. -/
theorem note (h : Mirrors o c m) {r : Record V} (hr : r ∈ m.stored) (counters : Counters)
    (hc' : ({ c with
      counters
      reads := (c.contents.handle? r.serial).elim c.reads (c.reads.record 0) } : Cache V).settle = c') :
    Mirrors o c' (m.note o r.serial) ∧ c.recency.Frees c'.recency ∧ c'.log = c.log := by
  unfold Aground.note
  dsimp only
  by_cases hlinked : r.serial ∈ m.records.map (·.serial)
  · obtain ⟨linked, hin, hserial⟩ := List.mem_map.mp hlinked
    obtain ⟨place, hplace, hname⟩ := h.lists.handle hin
    rw [hserial] at hplace hname
    rw [hplace, Option.elim_some] at hc'
    rw [if_pos hlinked, List.length_append, List.length_singleton]
    have hrecord := h.toNoted.record h.toServes hname (h.created ▸ h.finds.made hr) counters hc'
    split at hrecord
    · obtain ⟨reads, rfl, hitems, hnoted⟩ := hrecord
      rw [if_pos ‹_›]
      have hserves := h.toServes.noted counters hitems (.refl _) rfl
      exact ⟨{ hserves, hnoted with finds := h.finds, lists := h.lists, rings := h.rings }, .refl _,
        rfl⟩
    · obtain ⟨reads, places, rfl, hitems, hnames, hnoted⟩ := hrecord
      rw [if_neg ‹_›]
      obtain ⟨order, hkeeps⟩ := h.lists.chained
      have hrings := h.rings.congr fun other _ =>
        (Reference.touchAll_perm h.lists.serials (m.pending ++ [r.serial])).mem_iff
      have hserves := h.toServes.noted counters hitems
        (Recency.grows_hitAll c.recency places) rfl
      exact ⟨{ hserves, hnoted with
        finds := h.finds, lists := h.lists.hitAll hnames, rings := hrings },
        hkeeps.frees_hitAll places, rfl⟩
  · have hnone : c.contents.handle? r.serial = none := by
      rwa [h.lists.mem_iff, Bool.not_eq_true, Option.isSome_eq_false_iff,
        Option.isNone_iff_eq_none] at hlinked
    rw [if_neg hlinked]
    rw [hnone, Option.elim_none] at hc'
    subst hc'
    exact h.counted counters

/-- A read answers as the machine does, and is noted as there. -/
theorem status (h : Mirrors o c m) (key : String) :
    (c.getWithStatus key).1 = (m.status o key).1 ∧
      Mirrors o (c.getWithStatus key).2.settle (m.status o key).2 ∧
      c.recency.Frees (c.getWithStatus key).2.settle.recency ∧
      (c.getWithStatus key).2.settle.log = c.log := by
  obtain rfl := h.options
  obtain ⟨counters, hread⟩ := h.finds.getWithStatus key
  unfold Aground.status
  rw [hread, h.toServes.clock]
  cases hfind : Reference.find? m.stored key with
  | none => exact ⟨rfl, h.counted counters⟩
  | some r =>
    have hr := ((Reference.find?_eq_some_iff h.finds.keyed).mp hfind).1
    dsimp only
    cases r.statusAt c.clock.timestamp c.options.expireDelay with
    | notExist => exact ⟨rfl, h.counted counters⟩
    | exist | expired => exact ⟨rfl, h.note hr counters rfl⟩

end Mirrors

end Aground

/-! ## One list -/

/-- A cache with nothing to do and the plain machine are in equal states. -/
structure Mirrors {V : Type} (o : Options V) (c : Cache V) (m : Reference V) : Prop
    extends Matches o c m, Noted c.reads c.recency (max o.readBatch 1) m.created m.pending

namespace Mirrors

variable {V : Type} {o : Options V} {c c' : Cache V} {m m' : Reference V}

theorem aground (h : Mirrors o c m) : Aground.Mirrors o c m.aground :=
  { h.toMatches.aground, h.toNoted with }

theorem of_aground {stored : List (Record V)}
    (h : Aground.Mirrors o c { m.aground with stored }) (hperm : m.records.Perm stored) :
    Mirrors o c m :=
  { h with holds := .of_lists (h.finds.perm hperm) h.lists }

theorem of_goes (h : Mirrors o c m) {events : List (Event V)} (hgoes : Goes o c c' m m' events)
    (hrises : c.recency.Rises c'.recency) : Mirrors o c' m' := by
  refine of_aground ?_ (.refl m'.records)
  exact h.aground.of_goes ⟨hgoes.toPasses, hgoes.ending.aground, hgoes.pending⟩ hrises

end Mirrors

end TimedCache
