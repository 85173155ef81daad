import TimedCache.Proofs.Cache.Ledger
import TimedCache.Proofs.Cache.Outline

/-!
How the worker accounts for an entry that leaves. It comes to a deletion, evicts one entry for
another or finds an end come; then it counts the entry, if entries that leave so are counted, and
runs the callback for it, if there is one. Nothing else runs a callback.
-/

namespace TimedCache

/-- What a callback is told. -/
structure Notice (V : Type) where
  reason : Departure
  entry : Serial
  key : String
  value : V

def Event.notice? {V : Type} : Event V → Option (Notice V)
  | .left reason entry key value => some { reason, entry, key, value }
  | _ => none

/-- The callback for entries that leave for a reason. -/
def Options.hook {V : Type} (o : Options V) : Departure → Option Hook
  | .deleted | .evicted => o.onDelete
  | .expired => o.onExpire

/-- The counters once an entry has left. Deletions are not counted. -/
def Counters.leave (c : Counters) : Departure → Counters
  | .deleted => c
  | .evicted => c.eviction
  | .expired => c.expiration

namespace Cache

variable {V : Type} {c c' : Cache V}

/-- What the callbacks were told so far, in order. -/
def notices (c : Cache V) : List (Notice V) := c.log.toList.filterMap Event.notice?

/-- The entries that a callback was run for with a reason, in order. -/
def told (c : Cache V) (reason : Departure) : List Serial :=
  (c.notices.filter (·.reason = reason)).map (·.entry)

/-- What the callback, if there is one, is told of an entry that leaves for a reason. -/
def notice? (c : Cache V) (reason : Departure) (s : Serial) : Option (Notice V) :=
  if (c.options.hook reason).isSome then
    (c.contents.entry? s).map fun e => { reason, entry := s, key := e.key, value := e.value }
  else none

/-- The second state is the first with the departure of an entry, if any, accounted for. -/
structure Charges (c c' : Cache V) (gone : Option (Departure × Serial)) : Prop where
  counters : c'.counters = gone.elim c.counters fun d => c.counters.leave d.1
  notices : c'.notices = c.notices ++ (gone.bind fun d => c'.notice? d.1 d.2).toList

theorem Aside.notice?_eq (h : Aside c c') (reason : Departure) (s : Serial) :
    c'.notice? reason s = c.notice? reason s := by
  unfold notice?
  rw [h.contents, h.options]

theorem Charges.refl (c : Cache V) : Charges c c none := ⟨rfl, (List.append_nil _).symm⟩

/-- What came before counted nothing and ran no callback. -/
theorem Charges.after {base : Cache V} {gone : Option (Departure × Serial)}
    (h : Charges base c' gone) (hcounters : base.counters = c.counters)
    (hlog : base.log = c.log) : Charges c c' gone := by
  obtain ⟨hcharged, htold⟩ := h
  unfold Cache.notices at htold
  rw [hcounters] at hcharged
  rw [hlog] at htold
  exact ⟨hcharged, htold⟩

theorem charges_none (hcounters : c'.counters = c.counters) (hlog : c'.log = c.log) :
    Charges c c' none :=
  (Charges.refl c').after hcounters hlog

/-! ## The worker's operations -/

theorem notices_record (c : Cache V) (e : Event V) :
    (c.record e).notices = c.notices ++ e.notice?.toList := by
  unfold notices record
  rw [Array.toList_push, List.filterMap_append]
  cases e <;> rfl

theorem counters_announce (c : Cache V) (hook : Option Hook) (reason : Departure) (s : Serial) :
    (c.announce hook reason s).counters = c.counters := by
  unfold announce
  split
  · dsimp only
    split <;> rfl
  · rfl

theorem notices_announce (c : Cache V) (reason : Departure) (s : Serial) :
    (c.announce (c.options.hook reason) reason s).notices =
      c.notices ++ (c.notice? reason s).toList := by
  unfold announce notice?
  cases c.options.hook reason with
  | none => exact (List.append_nil _).symm
  | some callback =>
    rw [Option.isSome_some, if_pos rfl]
    cases he : c.contents.entry? s with
    | none => exact (List.append_nil _).symm
    | some e =>
      have htold := c.notices_record (.left reason s e.key e.value)
      dsimp only
      split
      · exact htold
      · exact htold

theorem schedule_silent (c : Cache V) (s : Serial) :
    (c.schedule s).counters = c.counters ∧ (c.schedule s).log = c.log := by
  unfold schedule
  split
  · exact ⟨rfl, rfl⟩
  · split
    · exact ⟨rfl, rfl⟩
    · split <;> exact ⟨rfl, rfl⟩

theorem timed_silent (c : Cache V) (s : Serial) :
    (c.timed s).counters = c.counters ∧ (c.timed s).log = c.log := by
  unfold timed
  split
  · exact (c.added s).schedule_silent s
  · exact ⟨rfl, rfl⟩

theorem retire_charges {s : Serial} {e : Entry V} (hmade : c.contents.entry? s = some e) :
    Charges c (c.retire s) (some (.evicted, s)) := by
  have hsame := (c.retire_aside s).notice?_eq .evicted s
  constructor
  · unfold retire
    rw [hmade]
    exact counters_announce _ _ _ _
  · rw [Option.bind_some, hsame]
    unfold retire
    rw [hmade]
    exact notices_announce _ .evicted s

/-- The entry that is evicted for another and accounted for, as the worker goes on. -/
def retired? (c : Cache V) (s : Serial) : Option Serial :=
  if (c.timed s).isClosed then none
  else (c.recency.add c.contents s).1.filter fun victim =>
    ((c.timed s).contents.entry? victim).isSome

theorem upsert_charges (c : Cache V) (s : Serial) :
    Charges c (c.upsert s) ((c.retired? s).map (.evicted, ·)) := by
  obtain ⟨hcounters, hlog⟩ := c.timed_silent s
  have hquiet := charges_none hcounters hlog
  rw [upsert_eq]
  unfold retired?
  cases (c.recency.add c.contents s).1 with
  | none =>
    rw [Option.filter_none, ite_self]
    exact hquiet
  | some victim =>
    dsimp only
    split
    · exact hquiet
    · rw [Option.filter_some]
      cases he : (c.timed s).contents.entry? victim with
      | none =>
        -- Not ruled out here, where nothing is known of the contents.
        have hsame : (c.timed s).retire victim = c.timed s := by
          unfold retire
          rw [he]
        rw [hsame]
        exact hquiet
      | some e => exact (retire_charges he).after hcounters hlog

theorem bury_charges (c : Cache V) (s : Serial) :
    Charges c (c.bury s) (some (.deleted, s)) := by
  have hsame := (c.bury_aside s).notice?_eq .deleted s
  constructor
  · rw [bury_eq]
    split
    · rfl
    · exact counters_announce _ _ _ _
  · rw [Option.bind_some, hsame, bury_eq]
    cases he : (c.removed s).contents.entry? s with
    | none =>
      unfold notice?
      rw [he, Option.map_none, ite_self]
      exact (List.append_nil _).symm
    | some e => exact notices_announce _ .deleted s

/-- The entry that a fired timer removes from its slot and from the list. -/
def lapsed? (c : Cache V) (id : TimerId) (key : String) : Option Serial :=
  (c.fallen? id key).bind fun s => (c.recency.remove c.contents s).1.map fun _ => s

theorem expire_charges (c : Cache V) (id : TimerId) (key : String) :
    Charges c (c.expire id key) ((c.lapsed? id key).map (.expired, ·)) := by
  unfold expire lapsed? fallen?
  generalize c.expiry.acknowledge key id = result
  obtain ⟨_ | s, expiry⟩ := result
  · exact charges_none rfl rfl
  · dsimp only [Option.filter]
    by_cases hslot : c.contents.occupant? key = some s
    · simp only [hslot, if_true, decide_true, Bool.true_and]
      cases (c.contents.entry? s).bind (·.evictAt c.options.expireDelay) with
      | none => exact charges_none rfl rfl
      | some moment =>
        by_cases hdue : moment ≤ c.clock.timestamp
        · simp only [hdue, if_true, Option.any_some, decide_true, Option.bind_some]
          generalize c.recency.remove c.contents s = outcome
          obtain ⟨_ | u, recency, contents⟩ := outcome
          · exact charges_none rfl rfl
          · exact ⟨counters_announce _ _ _ _, by
              rw [Option.map_some, Option.map_some, Option.bind_some,
                (announce_aside _ _ .expired s).notice?_eq]
              exact notices_announce _ .expired s⟩
        · simp only [hdue, if_false, Option.any_some, decide_false]
          obtain ⟨hcounters, hlog⟩ := ({ c with expiry } : Cache V).schedule_silent s
          exact charges_none hcounters hlog
    · simp only [hslot, if_false, decide_false, Bool.false_and]
      exact charges_none rfl rfl

/-- The entry that leaves as the worker comes to a write operation. -/
def parting? (c : Cache V) : WriteOp → Option (Departure × Serial)
  | .set s | .update s => (c.retired? s).map (.evicted, ·)
  | .delete s => some (.deleted, s)
  | .clear | .flush => none

theorem apply_charges (c : Cache V) (op : WriteOp) : Charges c (c.apply op) (c.parting? op) := by
  cases op with
  | set s => exact c.upsert_charges s
  | update s => exact c.upsert_charges s
  | delete s => exact c.bury_charges s
  | clear => exact charges_none rfl rfl
  | flush => exact charges_none rfl rfl

end Cache

namespace System

variable {V : Type} {s : System V}

/-! ## Moves -/

/-- The entry that a move accounts for as one that leaves, and why it does. -/
def departing? (s : System V) : Move V → Option (Departure × Serial)
  | .workWrite => s.cache.writes.items.head?.bind
    (s.cache.received s.cache.writes.items.tail).parting?
  | .workFired => s.cache.fired.head?.bind fun task =>
    (s.cache.lapsed? task.1 task.2).map (.expired, ·)
  | _ => none

/-- The entry that a move accounts for as one that leaves for a reason. -/
def departed? (s : System V) (move : Move V) (reason : Departure) : Option Serial :=
  ((s.departing? move).filter (·.1 = reason)).map (·.2)

theorem departed_of_paired (why reason : Departure) (gone : Option Serial) :
    ((gone.map (why, ·)).filter (·.1 = reason)).map (·.2) = if why = reason then gone else none := by
  cases gone with
  | none => exact (ite_self none).symm
  | some t =>
    rw [Option.map_some, Option.filter_some]
    by_cases hwhy : why = reason <;> simp [hwhy]

theorem departed?_workWrite (s : System V) (reason : Departure) :
    s.departed? .workWrite reason = match reason with
      | .deleted => s.cache.writes.items.head?.bind WriteOp.deleted?
      | .evicted => (s.cache.writes.items.head?.bind WriteOp.upserted?).bind
        (s.cache.received s.cache.writes.items.tail).retired?
      | .expired => none := by
  unfold departed? departing?
  cases s.cache.writes.items with
  | nil => cases reason <;> rfl
  | cons op rest =>
    cases op with
    | set u => exact (departed_of_paired .evicted reason _).trans (by cases reason <;> rfl)
    | update u => exact (departed_of_paired .evicted reason _).trans (by cases reason <;> rfl)
    | delete | clear | flush => cases reason <;> rfl

theorem departed?_workFired (s : System V) (reason : Departure) :
    s.departed? .workFired reason = match reason with
      | .deleted | .evicted => none
      | .expired => s.cache.fired.head?.bind fun task => s.cache.lapsed? task.1 task.2 := by
  unfold departed? departing?
  cases s.cache.fired with
  | nil => cases reason <;> rfl
  | cons task rest => exact (departed_of_paired .expired reason _).trans (by cases reason <;> rfl)

/-- The worker accounts for the entry that leaves. -/
theorem worker_charges (s : System V) {move : Move V} (hworker : move.ofWorker = true) :
    Cache.Charges s.cache (s.step move).cache (s.departing? move) := by
  cases move with
  | workWrite =>
    change Cache.Charges s.cache s.cache.workWrite (s.departing? .workWrite)
    unfold departing?
    dsimp only
    cases hitems : s.cache.writes.items with
    | nil =>
      rw [Cache.workWrite_of_nil hitems]
      exact Cache.charges_none rfl rfl
    | cons op rest =>
      rw [Cache.workWrite_of_cons hitems]
      exact ((s.cache.received rest).apply_charges op).after rfl rfl
  | workRead =>
    obtain ⟨reads, places, heq⟩ := s.cache.workRead_frame
    change Cache.Charges s.cache s.cache.workRead none
    rw [heq]
    exact Cache.charges_none rfl rfl
  | workFired =>
    change Cache.Charges s.cache s.cache.workFired (s.departing? .workFired)
    unfold departing?
    dsimp only
    cases hfired : s.cache.fired with
    | nil =>
      rw [Cache.workFired_of_nil hfired]
      exact Cache.charges_none rfl rfl
    | cons task rest =>
      rw [Cache.workFired_of_cons hfired]
      have hcharges := ({ s.cache with fired := rest } : Cache V).expire_charges task.1 task.2
      exact hcharges.after rfl rfl
  | _ => cases hworker

theorem notices_of_caller (s : System V) {move : Move V} (hcaller : move.ofWorker = false) :
    (s.step move).cache.notices = s.cache.notices := by
  cases move with
  | look key =>
    obtain ⟨reads, counters, heq⟩ := s.cache.getWithStatus_frame key
    change (s.cache.getWithStatus key).2.notices = _
    rw [heq]
    rfl
  | store key value ttl wait =>
    change (s.cache.lodge key value ttl wait).2.notices = _
    cases hs : s.cache.contents.occupant? key with
    | some t =>
      rw [Cache.lodge_of_occupant hs]
      split <;> rfl
    | none =>
      rw [Cache.lodge_of_vacant hs]
      split <;> rfl
  | strandSet key value ttl =>
    rw [step_strandSet]
    rfl
  | strandDelete key =>
    rw [step_strandDelete]
    rfl
  | detach key =>
    rw [step_detach]
    rfl
  | sendDelete t =>
    rw [step_sendDelete]
    cases s.cache.isClosed <;> split <;> rfl
  | offerDelete t =>
    rw [step_offerDelete]
    cases s.cache.isClosed || s.cache.writes.isFull <;> split <;> rfl
  | clear =>
    rw [step_clear]
    cases s.cache.isClosed <;> rfl
  | flush =>
    rw [step_flush]
    cases s.cache.isClosed <;> rfl
  | board | lapse | wake | pace | pause | unpause | halt => rfl
  | askLoader key => exact (s.cache.notices_record _).trans (List.append_nil _)
  | askBatchLoader keys => exact (s.cache.notices_record _).trans (List.append_nil _)
  | workWrite | workRead | workFired => cases hcaller

/-- A move runs the callback for the entry that leaves, if there is one, and for no other. -/
theorem notices_step (s : System V) (move : Move V) :
    (s.step move).cache.notices = s.cache.notices ++
      ((s.departing? move).bind fun d => (s.step move).cache.notice? d.1 d.2).toList := by
  cases hworker : move.ofWorker with
  | true => exact (s.worker_charges hworker).notices
  | false =>
    have hnone : s.departing? move = none := by cases move <;> first | rfl | cases hworker
    rw [s.notices_of_caller hworker, hnone]
    exact (List.append_nil _).symm

/-- The entry that is evicted for the one to which the worker comes. -/
def evicted? (s : System V) : Move V → Option Serial
  | .workWrite => (s.cache.writes.items.head?.bind WriteOp.upserted?).bind fun u =>
    (s.cache.recency.add s.cache.contents u).1
  | _ => none

/-- The entry whose end has come when the worker comes to its timer. -/
def expired? (s : System V) : Move V → Option Serial
  | .workFired => s.cache.fired.head?.bind fun task => s.cache.fallen? task.1 task.2
  | _ => none

/-- The entry that leaves with a move for a reason. -/
def leaving? (s : System V) (move : Move V) : Departure → Option Serial
  | .deleted => s.buried? move
  | .evicted => s.evicted? move
  | .expired => s.expired? move

/-- What is accounted for leaves. -/
theorem leaving?_of_departing {move : Move V} {reason : Departure} {t : Serial}
    (h : s.departing? move = some (reason, t)) : s.leaving? move reason = some t := by
  cases move with
  | workWrite =>
    obtain ⟨op, hhead, hparts⟩ := Option.bind_eq_some_iff.mp h
    obtain ⟨rest, hitems⟩ := List.head?_eq_some_iff.mp hhead
    rw [hitems] at hparts
    have hevicted {u : Serial} (hop : op.upserted? = some u)
        (hretired : ((s.cache.received rest).retired? u).map (Departure.evicted, ·) =
          some (reason, t)) : s.leaving? .workWrite reason = some t := by
      obtain ⟨victim, hvictim, hpair⟩ := Option.map_eq_some_iff.mp hretired
      cases hpair
      unfold Cache.retired? at hvictim
      split at hvictim
      · cases hvictim
      · unfold leaving? evicted?
        dsimp only
        rw [hitems, List.head?_cons, Option.bind_some, hop]
        exact (Option.filter_eq_some_iff.mp hvictim).1
    cases op with
    | set u => exact hevicted rfl hparts
    | update u => exact hevicted rfl hparts
    | delete u =>
      cases hparts
      unfold leaving? buried?
      dsimp only
      rw [hitems]
      rfl
    | clear | flush => cases hparts
  | workFired =>
    obtain ⟨task, hhead, hlapsed⟩ := Option.bind_eq_some_iff.mp h
    obtain ⟨u, hu, hpair⟩ := Option.map_eq_some_iff.mp hlapsed
    cases hpair
    obtain ⟨v, hfallen, hremoved⟩ := Option.bind_eq_some_iff.mp hu
    obtain ⟨_, _, rfl⟩ := Option.map_eq_some_iff.mp hremoved
    exact Option.bind_eq_some_iff.mpr ⟨task, hhead, hfallen⟩
  | _ => cases h

/-! ## What leaves -/

theorem mem_owed_of_buried {move : Move V} {t : Serial} (h : s.buried? move = some t) :
    t ∈ s.owed := by
  cases move with
  | workWrite =>
    obtain ⟨op, hhead, hop⟩ := Option.bind_eq_some_iff.mp h
    obtain ⟨rest, hitems⟩ := List.head?_eq_some_iff.mp hhead
    cases op with
    | delete u =>
      cases hop
      exact mem_owed.mpr (Or.inr (hitems ▸ List.mem_cons_self))
    | _ => cases hop
  | _ => cases h

theorem Coherent.gone_of_owed (h : s.Coherent) {t : Serial} (ht : t ∈ s.owed) :
    s.cache.contents.Gone t :=
  (mem_owed.mp ht).elim (h.detached_gone t) (h.deleted_gone t)

/-- An entry that is evicted or expires has a slot, and loses it. -/
theorem Coherent.slot_of_leaving (h : s.Coherent) {move : Move V} {reason : Departure} {t : Serial}
    (hleaves : s.leaving? move reason = some t) (hreason : reason ≠ .deleted) :
    (∃ key, s.cache.contents.occupant? key = some t) ∧
      (s.step move).cache.contents.Gone t := by
  have hlost {c' : Contents V} (hvacated : Contents.Vacated s.cache.contents c' (some t))
      {key : String} (hslot : s.cache.contents.occupant? key = some t) : c'.Gone t := by
    refine ⟨?_, fun other hother => ((hvacated.occupant_iff other t).mp hother).2 rfl⟩
    rw [hvacated.size_entries]
    exact h.keyed.occupant_lt hslot
  cases reason with
  | deleted => exact absurd rfl hreason
  | evicted =>
    cases move with
    | workWrite =>
      obtain ⟨u, hop, hvictim⟩ := Option.bind_eq_some_iff.mp hleaves
      obtain ⟨op, hhead, hop⟩ := Option.bind_eq_some_iff.mp hop
      obtain ⟨rest, hitems⟩ := List.head?_eq_some_iff.mp hhead
      obtain ⟨hvacated, hoccupies⟩ := Recency.add_vacated h.keyed s.cache.recency u
      obtain ⟨key, hslot⟩ := h.keyed.occupies_iff_exists.mp (hoccupies t hvictim)
      rw [hvictim] at hvacated
      have hcontents : (s.step .workWrite).cache.contents =
          (s.cache.recency.add s.cache.contents u).2.2 := by
        refine (Cache.workWrite_aside hitems).1.contents.trans ?_
        cases op <;> cases hop <;> rfl
      rw [hcontents]
      exact ⟨⟨key, hslot⟩, hlost hvacated hslot⟩
    | _ => cases hleaves
  | expired =>
    cases move with
    | workFired =>
      obtain ⟨task, hhead, hfallen⟩ := Option.bind_eq_some_iff.mp hleaves
      obtain ⟨rest, hfired⟩ := List.head?_eq_some_iff.mp hhead
      obtain ⟨hslot, _⟩ := Cache.occupant_of_fallen hfallen
      have haside := ({ s.cache with fired := rest } : Cache V).expire_aside task.1 task.2
      rw [show ({ s.cache with fired := rest } : Cache V).fallen? task.1 task.2 = some t
        from hfallen] at haside
      have hcontents : (s.step .workFired).cache.contents =
          (s.cache.recency.remove s.cache.contents t).2.2 :=
        (congrArg Cache.contents (Cache.workFired_of_cons hfired)).trans haside.contents
      rw [hcontents]
      exact ⟨⟨task.2, hslot⟩,
        hlost (Recency.remove_vacated h.keyed s.cache.recency t) hslot⟩
    | _ => cases hleaves

/-- What leaves has no slot any more. -/
theorem Coherent.gone_of_leaving (h : s.Coherent) {move : Move V} {reason : Departure} {t : Serial}
    (hleaves : s.leaving? move reason = some t) : (s.step move).cache.contents.Gone t := by
  cases reason with
  | deleted =>
    exact (h.step_follows move).ages.gone t (h.gone_of_owed (mem_owed_of_buried hleaves))
  | evicted | expired => exact (h.slot_of_leaving hleaves nofun).2

/-- The callback, if there is one, is run for each entry that a move accounts for. -/
theorem Coherent.told_step (h : s.Coherent) (move : Move V) (reason : Departure) :
    (s.step move).cache.told reason = s.cache.told reason ++
      if (s.cache.options.hook reason).isSome then (s.departed? move reason).toList else [] := by
  unfold Cache.told departed?
  rw [s.notices_step move, List.filter_append, List.map_append]
  congr 1
  cases hdeparts : s.departing? move with
  | none => simp
  | some d =>
    obtain ⟨why, t⟩ := d
    -- What leaves was made, so the callback finds a key and a value to tell.
    have hgone := h.gone_of_leaving (leaving?_of_departing hdeparts)
    obtain ⟨e, he⟩ : ∃ e, (s.step move).cache.contents.entry? t = some e :=
      ⟨_, Array.getElem?_eq_getElem hgone.1⟩
    unfold Cache.notice?
    rw [s.step_options move, Option.bind_some, he, Option.filter_some]
    by_cases hwhy : why = reason
    · subst hwhy
      cases (s.cache.options.hook why).isSome <;> simp
    · cases (s.cache.options.hook why).isSome <;> simp [hwhy]

end System

end TimedCache
