import TimedCache.Proofs.Cache.Accounts
import TimedCache.Proofs.Cache.BatchLoading

/-!
A cache whose worker has stopped. A caller who ends the worker lets it come to all operations queued
so far, unless a callback fails on the way. From then on no departure is counted or told of, no set is
accepted, and no key gets a slot; just a caller who deletes a key empties one. Loaders still answer
those who miss. The one exception is a set that cannot fix its deadline: it fails before the worker
can refuse it, and what it has put under its key stays there.
-/

namespace TimedCache

namespace Cache

variable {V : Type} {c c' c'' : Cache V} {key : String}

/-! ## Calls of a cache without a worker -/

theorem lodge_refused (h : c.isClosed = true) (key : String) (value : V) (ttl : Span)
    (wait : Bool) : (c.lodge key value ttl wait).1 = false := by
  have hrefused : ¬c.accepts wait = true := Bool.eq_false_iff.mp (accepts_of_closed h wait)
  cases hslot : c.contents.occupant? key with
  | some s => rw [lodge_of_occupant hslot, if_neg hrefused]
  | none => rw [lodge_of_vacant hslot, if_neg hrefused]

theorem setFor_refused (h : c.isClosed = true) (key : String) (value : V) (ttl : Span) :
    (c.setFor key value ttl).1 = false := by
  unfold setFor
  rw [store_eq, lodge_refused h]
  rfl

/-- A value that is refused moves no key to another entry. -/
theorem occupant?_lodge_of_closed (h : c.isClosed = true) (hkeyed : c.contents.WellKeyed)
    (key other : String) (value : V) (ttl : Span) (wait : Bool) :
    (c.lodge key value ttl wait).2.contents.occupant? other = c.contents.occupant? other := by
  by_cases heq : other = key
  · subst heq
    have hrefused : ¬c.accepts wait = true := Bool.eq_false_iff.mp (accepts_of_closed h wait)
    cases hslot : c.contents.occupant? other with
    | some s =>
      rw [lodge_of_occupant hslot, if_neg hrefused]
      exact (Contents.occupant?_modify c.contents s _ other).trans hslot
    | none =>
      have hplaced : ((c.created other value ttl).place c.nextSerial).WellKeyed :=
        (hkeyed.create other value (c.clock.stampAfter ttl)).place c.nextSerial
      rw [lodge_of_vacant hslot, if_neg hrefused]
      refine (hplaced.occupant?_vacate c.nextSerial other).trans (if_pos ?_)
      exact (Contents.occupant?_place_create c.contents other value _ other).trans (if_pos rfl)
  · exact occupant?_lodge_of_ne hkeyed heq value ttl wait

/-! ## What a stopped worker leaves -/

/-- In the second state the worker has stopped, and no departure was counted or told of on the way
from the first. -/
structure Dormant (c c' : Cache V) : Prop where
  ended : c'.Ended
  notices : c'.notices = c.notices
  evictions : c'.counters.evictions = c.counters.evictions
  expirations : c'.counters.expirations = c.counters.expirations
  atLastTick : c'.expiry.atLastTick = c.expiry.atLastTick

theorem Ended.dormant (h : c.Ended) : Dormant c c := ⟨h, rfl, rfl, rfl, rfl⟩

theorem Dormant.trans (hfirst : Dormant c c') (hsecond : Dormant c' c'') : Dormant c c'' :=
  ⟨hsecond.ended, hsecond.notices.trans hfirst.notices, hsecond.evictions.trans hfirst.evictions,
    hsecond.expirations.trans hfirst.expirations, hsecond.atLastTick.trans hfirst.atLastTick⟩

end Cache

namespace System

variable {V : Type} {s s' : System V}

theorem dormant_step (h : s.cache.Ended) (move : Move V) :
    Cache.Dormant s.cache (s.step move).cache := by
  have hnone : s.departing? move = none := by
    cases move with
    | workWrite =>
      unfold departing?
      dsimp only
      rw [h.writes]
      rfl
    | workFired =>
      unfold departing?
      dsimp only
      rw [h.fired]
      rfl
    | _ => rfl
  have hcounters := s.counters_step move
  have hnotices := s.notices_step move
  unfold charged departed? at hcounters
  rw [hnone] at hcounters hnotices
  obtain ⟨hended, hlast⟩ := ended_step h move
  refine ⟨hended, hnotices.trans (List.append_nil _), ?_, ?_, hlast⟩
  · rw [hcounters]
    rfl
  · rw [hcounters]
    rfl

theorem dormant_run (h : s.cache.Ended) (moves : List (Move V)) :
    Cache.Dormant s.cache (s.run moves).cache := by
  induction moves generalizing s with
  | nil => exact h.dormant
  | cons move rest ih =>
    have hfirst := dormant_step h move
    exact hfirst.trans (ih hfirst.ended)

/-- Without a worker, a slot is emptied by a caller who takes its key, and none is filled unless a
caller fails for want of a deadline. -/
theorem occupant?_step_of_ended (h : s.cache.Ended) (hkeyed : s.cache.contents.WellKeyed)
    {move : Move V} {key : String} (hset : touch? move ≠ some (.strand key)) :
    (s.step move).cache.contents.occupant? key =
      if key ∈ (touch? move).toList.filterMap Touch.taken? then none
      else s.cache.contents.occupant? key := by
  have hsame (hcontents : (s.step move).cache.contents = s.cache.contents)
      (huntaken : (touch? move).toList.filterMap Touch.taken? = []) :
      (s.step move).cache.contents.occupant? key =
        if key ∈ (touch? move).toList.filterMap Touch.taken? then none
        else s.cache.contents.occupant? key := by
    rw [hcontents, huntaken]
    rfl
  have htake (other : String) : (s.cache.contents.takeKey other).2.occupant? key =
      if key ∈ [other] then none else s.cache.contents.occupant? key := by
    refine (Contents.occupant?_takeKey s.cache.contents other key).trans ?_
    simp only [List.mem_singleton, eq_comm]
  cases move with
  | look | board | askLoader | askBatchLoader | lapse | wake | pace | pause | unpause =>
    exact hsame (s.step_of_quiet rfl).1 rfl
  | store other value ttl wait =>
    exact Cache.occupant?_lodge_of_closed h.closed hkeyed other key value ttl wait
  | strandSet other value ttl =>
    have hne : other ≠ key := by
      rintro rfl
      exact hset rfl
    rw [step_strandSet]
    exact (s.cache.occupant?_written other value ttl key).trans (if_neg hne)
  | detach other =>
    rw [step_detach]
    exact htake other
  | strandDelete other =>
    rw [step_strandDelete]
    exact htake other
  | sendDelete t =>
    refine hsame ?_ rfl
    rw [step_sendDelete, h.closed]
    split <;> rfl
  | offerDelete t =>
    refine hsame ?_ rfl
    rw [step_offerDelete, h.closed]
    split <;> rfl
  | clear =>
    refine hsame ?_ rfl
    rw [step_clear, h.closed]
    rfl
  | flush =>
    refine hsame ?_ rfl
    rw [step_flush, h.closed]
    rfl
  | halt => exact hsame rfl rfl
  | workWrite => exact hsame (congrArg Cache.contents (Cache.workWrite_of_nil h.writes)) rfl
  | workRead =>
    obtain ⟨reads, places, heq⟩ := s.cache.workRead_frame
    have hcontents : s.cache.workRead.contents = s.cache.contents := by rw [heq]
    exact hsame hcontents rfl
  | workFired => exact hsame (congrArg Cache.contents (Cache.workFired_of_nil h.fired)) rfl

/-- A slot that is emptied twice is emptied. -/
theorem taken_append {key : String} {first later : List String} {slot : Option Serial} :
    (if key ∈ later then none else if key ∈ first then none else slot) =
      if key ∈ first ++ later then none else slot := by
  by_cases hfirst : key ∈ first <;> by_cases hlater : key ∈ later <;> simp [hfirst, hlater]

theorem occupant?_run_of_ended (h : s.cache.Ended) (hcoherent : s.Coherent)
    {moves : List (Move V)} {key : String}
    (hset : ∀ value ttl, .strandSet key value ttl ∉ moves) :
    (s.run moves).cache.contents.occupant? key =
      if key ∈ (moves.filterMap touch?).filterMap Touch.taken? then none
      else s.cache.contents.occupant? key := by
  induction moves generalizing s with
  | nil => rfl
  | cons move rest ih =>
    have hmoves : (move :: rest).filterMap touch? =
        (touch? move).toList ++ rest.filterMap touch? := by
      rw [List.filterMap_cons]
      cases touch? move <;> rfl
    have hfirst : touch? move ≠ some (.strand key) := by
      intro htouch
      cases move with
      | strandSet other value ttl =>
        cases htouch
        exact hset value ttl List.mem_cons_self
      | _ => cases htouch
    rw [run_cons, ih (ended_step h move).1 (hcoherent.step move) fun value ttl hin =>
        hset value ttl (List.mem_cons_of_mem _ hin),
      occupant?_step_of_ended h hcoherent.keyed hfirst, taken_append, ← List.filterMap_append, hmoves]

end System

namespace Cache

variable {V : Type} {c c' : Cache V} {key : String}

theorem Ended.dormant_workSteps (h : c.Ended) (n : Nat) : Dormant c (c.workSteps n) := by
  obtain ⟨moves, _, hrun⟩ := System.leads_workSteps (fun _ _ => trivial) n c []
  have hdormant := System.dormant_run (s := { cache := c }) h moves
  rwa [hrun] at hdormant

/-! ## The last operations -/

/-- The worker comes to some operations, one after the other. -/
def applyAll (c : Cache V) : List WriteOp → Cache V
  | [] => c
  | op :: rest => ((c.received rest).apply op).applyAll rest

/-- Callbacks were run on the way from the first state to the second, and the last one has failed. -/
def Struck (c c' : Cache V) : Prop :=
  ∃ told last hook, c'.notices = c.notices ++ told ++ [last] ∧
    c.options.hook last.reason = some hook ∧ hook.fails last.key = true

theorem Struck.after {base : Cache V} {told : List (Notice V)} (h : Struck base c')
    (hoptions : base.options = c.options) (hnotices : base.notices = c.notices ++ told) :
    Struck c c' := by
  obtain ⟨more, last, hook, htold, hhook, hfails⟩ := h
  refine ⟨told ++ more, last, hook, ?_, hoptions ▸ hhook, hfails⟩
  rw [htold, hnotices, List.append_assoc c.notices told]

theorem announce_struck (c : Cache V) (reason : Departure) (s : Serial) :
    (c.announce (c.options.hook reason) reason s).isClosed = c.isClosed ∨
      Struck c (c.announce (c.options.hook reason) reason s) := by
  have hnotices := c.notices_announce reason s
  unfold notice? at hnotices
  unfold announce at hnotices ⊢
  cases hhook : c.options.hook reason with
  | none => exact Or.inl rfl
  | some hook =>
    cases he : c.contents.entry? s with
    | none => exact Or.inl rfl
    | some e =>
      rw [hhook, he] at hnotices
      dsimp only at hnotices ⊢
      cases hfails : hook.fails e.key with
      | false => exact Or.inl rfl
      | true =>
        rw [hfails] at hnotices
        exact Or.inr ⟨[], _, hook, by rw [List.append_nil]; exact hnotices, hhook, hfails⟩

theorem retire_struck (c : Cache V) (s : Serial) :
    (c.retire s).isClosed = c.isClosed ∨ Struck c (c.retire s) := by
  unfold retire
  cases c.contents.entry? s with
  | none => exact Or.inl rfl
  | some e =>
    let counted : Cache V := { c with
      expiry := (c.expiry.removeOwned e.key s).2, counters := c.counters.eviction }
    exact (counted.announce_struck .evicted s).imp_right fun hstruck =>
      hstruck.after rfl (List.append_nil _).symm

theorem bury_struck (c : Cache V) (s : Serial) :
    (c.bury s).isClosed = c.isClosed ∨ Struck c (c.bury s) := by
  rw [bury_eq]
  cases (c.removed s).contents.entry? s with
  | none => exact Or.inl rfl
  | some e =>
    let untimed : Cache V := { c.removed s with
      expiry := ((c.removed s).expiry.removeOwned e.key s).2 }
    exact (untimed.announce_struck .deleted s).imp_right fun hstruck =>
      hstruck.after rfl (List.append_nil _).symm

/-- Why the worker may have stopped on the way from the first state to the second. -/
def Stops (c c' : Cache V) : Prop := Struck c c' ∨ c'.expiry.atLastTick = true

theorem upsert_stops (c : Cache V) (s : Serial) :
    (c.upsert s).isClosed = c.isClosed ∨ Stops c (c.upsert s) := by
  have hquiet : (c.timed s).notices = c.notices ++ [] := by
    unfold notices
    rw [(c.timed_silent s).2, List.append_nil]
  rcases c.timed_halts s with hsame | ⟨hhalt, hlast⟩
  · rw [upsert_eq]
    cases (c.recency.add c.contents s).1 with
    | none => exact Or.inl hsame
    | some victim =>
      dsimp only
      split
      · exact Or.inl hsame
      · rcases (c.timed s).retire_struck victim with hopen | hstruck
        · exact Or.inl (hopen.trans hsame)
        · exact Or.inr (Or.inl (hstruck.after (c.timed_aside s).options hquiet))
  · rw [upsert_of_halt hhalt]
    exact Or.inr (Or.inr hlast)

/-- An operation stops the worker by a callback that fails, or at the last tick. -/
theorem apply_stops (c : Cache V) (op : WriteOp) :
    (c.apply op).isClosed = c.isClosed ∨ Stops c (c.apply op) := by
  cases op with
  | set s => exact c.upsert_stops s
  | update s => exact c.upsert_stops s
  | delete s => exact (c.bury_struck s).imp_right Or.inl
  | clear => exact Or.inl rfl
  | flush => exact Or.inl rfl

theorem workSteps_add (c : Cache V) (m n : Nat) :
    c.workSteps (m + n) = (c.workSteps m).workSteps n := by
  induction m generalizing c with
  | zero => rw [Nat.zero_add]; rfl
  | succ m ih =>
    rw [Nat.succ_add]
    exact ih c.work

theorem work_of_cons {op : WriteOp} {rest : List WriteOp} (h : c.writes.items = op :: rest) :
    c.work = (c.received rest).apply op := by
  rw [work_eq_workWrite (by rw [h]; exact List.cons_ne_nil _ _), workWrite_of_cons h]

/-- A worker that goes on after an operation has the others before it. -/
theorem items_apply {op : WriteOp} {rest : List WriteOp}
    (halive : ((c.received rest).apply op).isClosed = false) :
    ((c.received rest).apply op).writes.items = rest := by
  rw [(((c.received rest).apply_aside op).queues_of_alive halive).1]
  cases op <;> rfl

/-- A worker that an operation has stopped has ended. -/
theorem ended_apply (halive : c.isClosed = false) {op : WriteOp}
    (hclosed : (c.apply op).isClosed = true) : (c.apply op).Ended := by
  rcases c.apply_halts op with hsame | ⟨last, hlast⟩
  · exact absurd (halive.symm.trans (hsame.symm.trans hclosed)) Bool.noConfusion
  · rw [hlast]
    exact last.ended_halt

/-- A worker that empties its write queue comes to all operations in order, or is stopped by a
callback that fails or at the last tick. -/
theorem applyWrites_spec (halive : c.isClosed = false) :
    (c.applyWrites.isClosed = false → c.applyWrites = c.applyAll c.writes.items) ∧
      (c.applyWrites.isClosed = true → Stops c c.applyWrites) := by
  unfold applyWrites
  generalize hitems : c.writes.items = items
  induction items generalizing c with
  | nil => exact ⟨fun _ => rfl, fun hclosed => absurd (halive.symm.trans hclosed) Bool.noConfusion⟩
  | cons op rest ih =>
    change (((c.work).workSteps rest.length).isClosed = false → (c.work).workSteps rest.length = _) ∧
      (((c.work).workSteps rest.length).isClosed = true → Stops c ((c.work).workSteps rest.length))
    rw [work_of_cons hitems]
    have hreceived : (c.received rest).isClosed = false := halive
    have htold := ((c.received rest).apply_charges op).notices
    have hoptions : ((c.received rest).apply op).options = c.options := by
      rw [((c.received rest).apply_aside op).options]
      cases op <;> rfl
    cases hnext : ((c.received rest).apply op).isClosed with
    | true =>
      have hdormant := (ended_apply hreceived hnext).dormant_workSteps rest.length
      refine ⟨fun hopen => absurd (hopen.symm.trans hdormant.ended.closed) Bool.noConfusion,
        fun _ => ?_⟩
      rcases (c.received rest).apply_stops op with
        hsame | ⟨told, last, hook, hnotices, hhook, hfails⟩ | hlast
      · exact absurd (hreceived.symm.trans (hsame.symm.trans hnext)) Bool.noConfusion
      · exact Or.inl ⟨told, last, hook, hdormant.notices.trans hnotices, hhook, hfails⟩
      · exact Or.inr (hdormant.atLastTick.trans hlast)
    | false =>
      obtain ⟨happlied, hstops⟩ := ih hnext (items_apply hnext)
      exact ⟨happlied, fun hclosed =>
        (hstops hclosed).imp_left fun hstruck => hstruck.after hoptions htold⟩

/-- A caller who ends the worker wakes it, and has it empty its write queue first. -/
theorem close_eq (c : Cache V) :
    ∃ n, c.close = (({ c with paused := false } : Cache V).applyWrites.workSteps n).halt := by
  unfold close
  cases hpaused : c.paused with
  | true =>
    refine ⟨c.reads.sink.items.length + c.fired.length, ?_⟩
    rw [if_pos rfl]
    unfold resume catchUp backlog
    rw [Nat.add_assoc, workSteps_add]
    rfl
  | false =>
    have hsame : ({ c with paused := false } : Cache V) = c := by rw [← hpaused]
    refine ⟨0, ?_⟩
    rw [if_neg Bool.false_ne_true, hsame]
    rfl

/-! ## Loads -/

/-- A caller whom nobody precedes is answered with the live value, or else with what its loader
answers. -/
theorem getOrLoadWith_fst (halone : c.loads.inFlight.lookup key = none) {loader : Loader V}
    {value : V} (hloader : loader key = .ok value) (ttl : Span) :
    (c.getOrLoadWith key loader ttl).1 = .done (.ok ((c.get key).1.getD value)) := by
  have hload := System.load_at_once { cache := c } key loader ttl
  have hanswer : (System.load { cache := c } key loader ttl []).1 =
      (c.getOrLoadWith key loader ttl).1 := congrArg (·.1) hload
  rw [← hanswer]
  by_cases hlive : (c.getWithStatus key).1.2 = .exist
  · have hsome : (c.getWithStatus key).1.1.isSome :=
      (c.getWithStatus_isSome key).mpr (by rw [hlive]; decide)
    obtain ⟨found, hfound⟩ := Option.isSome_iff_exists.mp hsome
    have hseen : (c.getWithStatus key).1 = (some found, .exist) := Prod.ext hfound hlive
    have hget : (c.get key).1 = some found := by
      unfold get
      generalize c.getWithStatus key = result at hseen ⊢
      obtain ⟨seen, looked⟩ := result
      cases hseen
      rfl
    rw [System.load_of_live (s := { cache := c }) hseen, hget]
    rfl
  · have hget : (c.get key).1 = none := (c.peek_eq_get key).symm.trans (peek_of_miss hlive)
    rw [System.load_of_ok (s := { cache := c }) hlive halone hloader, hget]
    rfl

/-- A caller who asks for many keys is answered with the live values and what its loader sends. -/
theorem getManyOrLoadWith_fst {keys : List String} {loader : BatchLoader V}
    {loaded : Std.HashMap String V}
    (hloader : loader (keys.filter fun key => (c.get key).1.isNone) = .ok loaded) (ttl : Span) :
    ∃ found, (c.getManyOrLoadWith keys loader ttl).1 = .ok found ∧
      ∀ key ∈ keys, found[key]? = some ((c.get key).1 <|> loaded[key]?) := by
  obtain ⟨_, hmissing, hfound⟩ := c.getMany_spec keys
  have hanswer (key : String) (hkey : key ∈ keys) :=
    (c.getElem?_answer keys loaded key).trans (if_pos hkey)
  rw [← hmissing] at hloader
  unfold getManyOrLoadWith
  generalize c.getMany keys = result at hloader hmissing hanswer hfound ⊢
  obtain ⟨⟨found, missing⟩, looked⟩ := result
  dsimp only at hloader hmissing hanswer hfound ⊢
  cases missing with
  | nil => exact ⟨found, rfl, hanswer⟩
  | cons first rest =>
    rw [List.isEmpty_cons, if_neg Bool.false_ne_true, hloader]
    exact ⟨_, rfl, hanswer⟩

/-- A leader whose loader has answered returns the value, and so do those who follow. -/
theorem finishLoad_answers (c : Cache V) {call : LoadCall V} {id : CallId}
    (hleads : call.seat = .leader id) (value : V) (ttl : Span) :
    (c.finishLoad call (.ok value) ttl).1 = .done (.ok value) ∧
      ∀ follower : LoadCall V, follower.seat = .follower id → id < c.loads.calls.size →
        (c.finishLoad call (.ok value) ttl).2.lookLoad follower = .done (.ok value) := by
  have hloads : (c.store call.key value ttl false).2.loads = c.loads := by
    rw [store_without_wait]
    exact (c.lodge_loads_log call.key value ttl false).1
  unfold finishLoad
  rw [hleads]
  refine ⟨rfl, fun follower hfollows hid => ?_⟩
  have hpublished : (c.loads.calls.modify id fun _ => Progress.published (.ok value))[id]? =
      some (.published (.ok value)) := by
    rw [Array.getElem?_modify, if_pos rfl, Array.getElem?_eq_getElem hid]
    rfl
  unfold lookLoad SingleFlight.outcome? SingleFlight.progress SingleFlight.publish
    SingleFlight.settle
  rw [hfollows]
  dsimp only
  rw [hloads, hpublished]
  rfl

end Cache

namespace System

variable {V : Type} {s : System V}

/-- Whatever happened to a new cache, a caller who ends the worker has it come to every operation queued
before, in order, unless a callback fails meanwhile or the wheel stands at the last tick. Once the
worker has stopped, by such a caller or otherwise, and whatever happens to the cache then, it stays
so: no callback is run, nothing is evicted or expires, and a key keeps its entry until a caller takes
it, or stays without one unless a set is stranded. Each call as a whole is part of such a run, and
takes no key but the one that it deletes. No set is accepted. A caller of a load gets the live value
or what the loader answers, and so do those who joined it before. -/
theorem still_once_closed {options : Options V} {clock : Clock} {c : Cache V}
    (hc : Cache.create options clock = .ok c) {past : List (Move V)}
    (hs : ({ cache := c } : System V).run past = s) :
    let woken : Cache V := { s.cache with paused := false }
    ((∃ n, s.cache.close = (woken.applyWrites.workSteps n).halt) ∧ s.cache.close.isClosed = true ∧
      (s.cache.isClosed = false →
        (woken.applyWrites.isClosed = false →
          woken.applyWrites = woken.applyAll s.cache.writes.items) ∧
        (woken.applyWrites.isClosed = true → woken.Stops woken.applyWrites))) ∧
    (s.cache.isClosed = true → ∀ (later : List (Move V)) (t : System V), s.run later = t →
      t.cache.isClosed = true ∧ t.cache.notices = s.cache.notices ∧
      t.cache.statistics.evictions = s.cache.statistics.evictions ∧
      t.cache.statistics.expirations = s.cache.statistics.expirations ∧
      (∀ key, (∀ value ttl, .strandSet key value ttl ∉ later) →
        t.cache.contents.occupant? key =
          if key ∈ (later.filterMap touch?).filterMap Touch.taken? then none
          else s.cache.contents.occupant? key) ∧
      (∀ ask : Ask V, Touches (ask.touches options) t { t with cache := t.cache.ask ask }) ∧
      (∀ key value ttl, (t.cache.trySetFor key value ttl).map (·.1) =
        if t.cache.setDeadlineFits then .ok false else .error .deadline) ∧
      (∀ key (loader : Loader V) ttl value, t.cache.loads.inFlight.lookup key = none →
        loader key = .ok value →
        (t.cache.getOrLoadWith key loader ttl).1 =
          .done (.ok ((t.cache.get key).1.getD value))) ∧
      (∀ (call : LoadCall V) id ttl value, call.seat = .leader id →
        (t.cache.finishLoad call (.ok value) ttl).1 = .done (.ok value) ∧
        ∀ follower : LoadCall V, follower.seat = .follower id → id < t.cache.loads.calls.size →
          (t.cache.finishLoad call (.ok value) ttl).2.lookLoad follower = .done (.ok value)) ∧
      ∀ keys (loader : BatchLoader V) ttl loaded,
        loader (keys.filter fun key => (t.cache.get key).1.isNone) = .ok loaded →
        ∃ found, (t.cache.getManyOrLoadWith keys loader ttl).1 = .ok found ∧
          ∀ key ∈ keys, found[key]? = some ((t.cache.get key).1 <|> loaded[key]?)) := by
  intro woken
  have hcoherent : s.Coherent := hs ▸ (coherent_create hc).run past
  have hended : s.cache.isClosed = true → s.cache.Ended := hs ▸ ended_of_create hc past
  obtain ⟨n, hclose⟩ := s.cache.close_eq
  refine ⟨⟨⟨n, hclose⟩, hclose ▸ rfl, fun halive => Cache.applyWrites_spec halive⟩, ?_⟩
  rintro hclosed later t rfl
  have hdormant := dormant_run (hended hclosed) later
  have hoptions : (s.run later).cache.options = options := by
    rw [run_options, ← hs, run_options, Cache.options_create hc]
  refine ⟨hdormant.ended.closed, hdormant.notices, hdormant.evictions, hdormant.expirations,
    fun key hset => occupant?_run_of_ended (hended hclosed) hcoherent hset,
    fun ask => hoptions ▸ touches_ask _ _ ask, fun key value ttl => ?_,
    fun key loader ttl value halone hloader => Cache.getOrLoadWith_fst halone hloader ttl,
    fun call id ttl value hleads => Cache.finishLoad_answers _ hleads value ttl,
    fun keys loader ttl loaded hloader => Cache.getManyOrLoadWith_fst hloader ttl⟩
  unfold Cache.trySetFor
  split
  · exact congrArg Except.ok (Cache.setFor_refused hdormant.ended.closed key value ttl)
  · rfl

/-- Sets are to wait for longer than the steady clock can name moments. -/
def endless : Options String := { syncSetTimeout := some (.ofSeconds Clock.steadySeconds) }

/-- With such options a set on a cache that is closed fails without having been refused, and its key
is found from then on; other keys stay as they are, and loads are answered. -/
theorem still_once_closed_stranded :
    ∃ (c : Cache String) (t : System String), Cache.create endless { unix := 0 } = .ok c ∧
      c.close.isClosed = true ∧
      ({ cache := c.close } : System String).run [.strandSet "a" "1" .zero] = t ∧
      c.close.contents.occupant? "a" = none ∧ (t.cache.contents.occupant? "a").isSome = true ∧
      t.cache.isClosed = true ∧ t.cache.notices = [] ∧ t.cache.contents.occupant? "b" = none ∧
      (t.cache.trySetFor "b" "2" .zero).map (·.1) = .error .deadline ∧
      (t.cache.getOrLoadWith "b" (fun _ => .ok "2") .zero).1 = .done (.ok "2") := by
  obtain ⟨c, hc⟩ := Cache.exists_create (show endless.shards ≤ _ by decide) { unix := 0 }
  let closed : System String := { cache := c.close }
  let t := closed.run [.strandSet "a" "1" .zero]
  have hvacant := Cache.vacant_create hc
  obtain ⟨contents, _, heq⟩ := Cache.create_eq_ok hc
  have hclose : c.close = c.halt := by
    rw [heq]
    rfl
  have hcontents : c.close.contents = c.contents := by
    rw [hclose]
    rfl
  have hnew : ({ cache := c } : System String).run [] = { cache := c } := rfl
  have hpast : ({ cache := c } : System String).run [.halt] = closed :=
    congrArg (System.mk · []) hclose.symm
  obtain ⟨⟨_, hstopped, _⟩, _⟩ := still_once_closed hc hnew
  obtain ⟨_, hstill⟩ := still_once_closed hc hpast
  obtain ⟨hclosed, hnotices, _, _, hslots, _, hset, hload, _⟩ :=
    hstill hstopped [.strandSet "a" "1" .zero] t rfl
  have hstranded : t.cache = { c.close with
      contents := (c.close.created "a" "1" .zero).place c.close.nextSerial } := by
    refine (c.close.strandSet_eq "a" "1" .zero).trans ?_
    rw [Cache.written_of_vacant (hcontents ▸ hvacant "a")]
  have hother : t.cache.contents.occupant? "b" = none := by
    have hslot := hslots "b" fun value ttl hin => by
      have hkey := (Move.strandSet.inj (List.mem_singleton.mp hin)).1
      exact absurd hkey (by decide)
    exact hslot.trans (hcontents ▸ hvacant "b")
  have hmiss : (t.cache.get "b").1 = none := by
    unfold Cache.get Cache.getWithStatus Contents.occupantEntry?
    rw [hother]
    rfl
  refine ⟨c, t, hc, hstopped, rfl, ?_, ?_, hclosed, ?_, hother, ?_, ?_⟩
  · rw [hcontents]
    exact hvacant "a"
  · rw [hstranded]
    change (((c.close.contents.create "a" "1" _).2.place c.close.contents.entries.size).occupant?
      "a").isSome = true
    rw [Contents.occupant?_place_create, if_pos rfl]
    rfl
  · refine hnotices.trans ?_
    change c.close.notices = []
    rw [hclose, heq]
    rfl
  · have hdeadline : t.cache.setDeadlineFits = false := by
      rw [hstranded, hclose, heq]
      change Clock.canAwait { unix := 0 } (.ofSeconds Clock.steadySeconds) = false
      decide
    refine (hset "b" "2" .zero).trans (if_neg ?_)
    rw [hdeadline]
    exact Bool.false_ne_true
  · have halone : t.cache.loads.inFlight.lookup "b" = none := by
      rw [hstranded, hclose, heq]
      rfl
    refine (hload "b" (fun _ => .ok "2") .zero "2" halone rfl).trans ?_
    rw [hmiss]
    rfl

end System

end TimedCache
