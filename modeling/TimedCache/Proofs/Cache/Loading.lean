import TimedCache.Proofs.Cache.Persistence
import TimedCache.Proofs.Cache.Windows
import TimedCache.Proofs.SingleFlight.Coalescing

/-!
Loading what is missing. A caller that finds a live value is answered with it, and the loader is not
called. Any other caller leads a load if none is in flight for its key, and calls the loader once.
All else may go on while the loader runs. Its failure leaves nothing behind but the miss and the
note of the read; its value is returned in any case, and readers find it if the write was taken.
-/

namespace TimedCache

namespace SingleFlight

variable {V : Type} {f : SingleFlight V} {key : String}

/-- A load that has started and ended leaves the others in flight. -/
theorem inFlight_settle_enter (h : f.inFlight.lookup key = none) (call : CallId)
    (p : Progress V) : ((f.enter key).2.settle key call p).inFlight = f.inFlight := by
  have hothers (entry : String × CallId) (hin : entry ∈ f.inFlight) : (entry.1 != key) = true :=
    bne_iff_ne.mpr (Ne.symm (bne_iff_ne.mp (List.lookup_eq_none_iff.mp h entry hin)))
  unfold enter settle
  rw [h]
  dsimp only
  rw [List.filter_cons_of_neg (by simp), List.filter_eq_self.mpr hothers]

theorem lookup_settle (f : SingleFlight V) (key : String) (call : CallId) (p : Progress V) :
    (f.settle key call p).inFlight.lookup key = none :=
  (Callers.lookup_filter_ne f.inFlight key key).trans (if_pos rfl)

end SingleFlight

namespace Cache

variable {V : Type} {c : Cache V} {key : String}

/-! ## A look-up without a live value -/

/-- The notes of reads after a look-up without a live value: just a stale value is noted. -/
def missNotes (c : Cache V) (key : String) : ReadTracker :=
  match c.contents.occupantEntry? key with
  | some e =>
    if e.statusAt c.clock.timestamp c.options.expireDelay = .expired then (c.noteRead e).reads
    else c.reads
  | none => c.reads

/-- The state in which a caller has missed and its loader runs. -/
def awaiting (c : Cache V) (key : String) : Cache V :=
  { c with
    counters := c.counters.miss, reads := c.missNotes key
    loads := (c.loads.enter key).2, log := c.log.push (.loading key) }

theorem getWithStatus_snd_of_miss (h : (c.getWithStatus key).1.2 ≠ .exist) :
    (c.getWithStatus key).2 =
      { c with counters := c.counters.miss, reads := c.missNotes key } := by
  have hnote (e : Entry V) (counters : Counters) : ({ c with counters } : Cache V).noteRead e =
      { c with counters, reads := (c.noteRead e).reads } := by
    unfold noteRead
    cases e.handle? <;> rfl
  revert h
  unfold missNotes getWithStatus
  cases c.contents.occupantEntry? key with
  | none => exact fun _ => rfl
  | some e =>
    dsimp only
    cases e.statusAt c.clock.timestamp c.options.expireDelay with
    | exist => exact fun h => absurd rfl h
    | notExist => exact fun _ => rfl
    | expired => exact fun _ => hnote e _

/-- A look-up shows a value unless it shows that there is none. -/
theorem getWithStatus_isSome (c : Cache V) (key : String) :
    (c.getWithStatus key).1.1.isSome ↔ (c.getWithStatus key).1.2 ≠ .notExist := by
  unfold getWithStatus
  cases c.contents.occupantEntry? key with
  | none => simp
  | some e =>
    dsimp only
    cases e.statusAt c.clock.timestamp c.options.expireDelay <;> simp

/-- A caller has a stale value to fall back on just if it found one. -/
theorem stale_isSome (c : Cache V) (key : String) :
    (if (c.getWithStatus key).1.2 = .expired then (c.getWithStatus key).1.1 else none).isSome ↔
      (c.getWithStatus key).1.2 = .expired := by
  split
  · rename_i hstale
    have hsome := (c.getWithStatus_isSome key).mpr (by simp [hstale])
    exact iff_of_true hsome hstale
  · rename_i hother
    exact iff_of_false Bool.false_ne_true hother

theorem eq_of_stale (c : Cache V) (key : String) {old : V}
    (h : (if (c.getWithStatus key).1.2 = .expired then (c.getWithStatus key).1.1 else none) =
      some old) : (c.getWithStatus key).1.1 = some old := by
  split at h
  · exact h
  · cases h

theorem peek_eq_get (c : Cache V) (key : String) : c.peek key = (c.get key).1 := by
  unfold peek get getWithStatus
  cases c.contents.occupantEntry? key with
  | none => rfl
  | some e =>
    dsimp only
    cases e.statusAt c.clock.timestamp c.options.expireDelay <;> rfl

theorem peek_of_miss (h : (c.getWithStatus key).1.2 ≠ .exist) : c.peek key = none := by
  rw [peek_eq_get]
  unfold get
  generalize c.getWithStatus key = result at h ⊢
  obtain ⟨⟨value, status⟩, looked⟩ := result
  cases status with
  | exist => exact absurd rfl h
  | _ => rfl

/-! ## The two parts of a load -/

theorem beginLoad_of_live {value : V} (h : (c.getWithStatus key).1 = (some value, .exist)) :
    c.beginLoad key = (.done (.ok value), (c.getWithStatus key).2) := by
  unfold beginLoad
  generalize c.getWithStatus key = result at h ⊢
  obtain ⟨seen, looked⟩ := result
  cases h
  rfl

/-- A caller that has missed leads the load of its key if none is in flight. The second look finds
nothing either. -/
theorem beginLoad_of_miss (hmiss : (c.getWithStatus key).1.2 ≠ .exist)
    (halone : c.loads.inFlight.lookup key = none) :
    c.beginLoad key =
      (.pending { key, seat := .leader c.loads.calls.size
                  stale := if (c.getWithStatus key).1.2 = .expired then (c.getWithStatus key).1.1
                    else none },
        c.awaiting key) := by
  have hlooked := getWithStatus_snd_of_miss hmiss
  have henter : c.loads.enter key = (.leader c.loads.calls.size, (c.loads.enter key).2) := by
    unfold SingleFlight.enter
    rw [halone]
  have hpeek : ({ c with
      counters := c.counters.miss, reads := c.missNotes key, loads := (c.loads.enter key).2 } :
        Cache V).peek key = none := (peek_of_miss hmiss : c.peek key = none)
  unfold beginLoad awaiting
  generalize c.getWithStatus key = result at hmiss hlooked ⊢
  obtain ⟨⟨value, status⟩, looked⟩ := result
  cases hlooked
  cases status with
  | exist => exact absurd rfl hmiss
  | _ => cases value <;> (dsimp only; rw [henter]; dsimp only; rw [hpeek]; rfl)

theorem store_without_wait (c : Cache V) (key : String) (value : V) (ttl : Span) :
    c.store key value ttl false = c.lodge key value ttl false := by
  rw [store_eq, attend_of_not_waits (by simp [waits])]
  refine Prod.ext ?_ rfl
  unfold submission
  cases (c.lodge key value ttl false).1 <;> rfl

theorem lodge_loads_log (c : Cache V) (key : String) (value : V) (ttl : Span) (wait : Bool) :
    (c.lodge key value ttl wait).2.loads = c.loads ∧
      (c.lodge key value ttl wait).2.log = c.log := by
  cases hs : c.contents.occupant? key with
  | some s =>
    rw [lodge_of_occupant hs]
    split <;> exact ⟨rfl, rfl⟩
  | none =>
    rw [lodge_of_vacant hs]
    split <;> exact ⟨rfl, rfl⟩

theorem accepts_of_store {value : V} {ttl : Span} {wait : Bool}
    (h : (c.store key value ttl wait).1 = true) : c.accepts wait = true :=
  (c.lodge_fst key value ttl wait).symm.trans (lodge_of_store h)

/-! ## An operation for the key itself -/

/-- An operation for an entry of a key takes nothing from readers of that key. -/
theorem writeChange_of_own {order : List Recency.Spot} {op : WriteOp} {rest : List WriteOp}
    {t : Serial} (hkeeps : c.recency.Keeps c.contents order) (hkeyed : c.contents.WellKeyed)
    (hitems : c.writes.items = op :: rest) (hop : op.upserted? = some t)
    (hkey : c.contents.keyOf t = some key) (hfits : (c.added t).recency.Fitting) :
    c.writeChange.touches key = false := by
  have hchange : c.writeChange = match ((c.recency.add c.contents t).1).bind c.contents.entry? with
      | some evicted => .remove evicted.key
      | none => .keep := by
    unfold writeChange
    rw [hitems]
    cases op <;> cases hop <;> rfl
  obtain ⟨_, _, hvictim⟩ := hkeeps.add hkeyed t hfits
  rw [hchange]
  cases hgone : (c.recency.add c.contents t).1 with
  | none => rfl
  | some victim =>
    rw [hgone] at hvictim
    obtain ⟨e, he, hslot⟩ := Contents.occupies_iff.mp
      ((Recency.add_vacated hkeyed c.recency t).2 victim hgone)
    rw [Option.bind_some, he]
    refine beq_eq_false_iff_ne.mpr fun heq => ?_
    have hne := (Recency.victim_spec hvictim.symm hkeeps.nodup_toList).2.1
    have hocc : c.contents.occupies t = true := by
      unfold Recency.victim? at hvictim
      split at hvictim
      · rename_i hcond
        exact hcond.2.1
      · cases hvictim
    obtain ⟨other, hother⟩ := hkeyed.occupies_iff_exists.mp hocc
    rw [hkeyed.keyOf_of_occupant hother] at hkey
    cases hkey
    rw [heq, hother] at hslot
    exact hne (Option.some.inj hslot).symm

end Cache

/-- Whether no caller writes: somebody looks, the worker steps or time passes. -/
def Move.unwritten {V : Type} (move : Move V) : Bool := move.quiet || move.ofWorker

namespace System

variable {V : Type} {s : System V} {key : String}

/-! ## Moves without a write -/

theorem step_loads (s : System V) {move : Move V} (h : ∀ loads, move ≠ .board loads) :
    (s.step move).cache.loads = s.cache.loads := by
  cases move with
  | look other =>
    obtain ⟨reads, counters, heq⟩ := s.cache.getWithStatus_frame other
    change (s.cache.getWithStatus other).2.loads = s.cache.loads
    rw [heq]
  | board loads => exact absurd rfl (h loads)
  | store other value ttl wait => exact (s.cache.lodge_loads_log other value ttl wait).1
  | strandSet other value ttl => rw [step_strandSet]
  | detach other => rw [step_detach]
  | strandDelete other => rw [step_strandDelete]
  | sendDelete t =>
    rw [step_sendDelete]
    cases s.cache.isClosed <;> split <;> rfl
  | offerDelete t =>
    rw [step_offerDelete]
    cases s.cache.isClosed || s.cache.writes.isFull <;> split <;> rfl
  | clear =>
    rw [step_clear]
    cases s.cache.isClosed <;> rfl
  | flush =>
    rw [step_flush]
    cases s.cache.isClosed <;> rfl
  | workWrite =>
    change s.cache.workWrite.loads = s.cache.loads
    cases hitems : s.cache.writes.items with
    | nil => rw [Cache.workWrite_of_nil hitems]
    | cons op rest =>
      rw [(Cache.workWrite_aside hitems).1.loads]
      cases op <;> rfl
  | workRead =>
    obtain ⟨reads, places, heq⟩ := s.cache.workRead_frame
    change s.cache.workRead.loads = s.cache.loads
    rw [heq]
  | workFired =>
    change s.cache.workFired.loads = s.cache.loads
    cases hfired : s.cache.fired with
    | nil => rw [Cache.workFired_of_nil hfired]
    | cons task rest =>
      rw [Cache.workFired_of_cons hfired, (Cache.expire_aside _ task.1 task.2).loads]
      split <;> rfl
  | _ => rfl

theorem loads_run (s : System V) {moves : List (Move V)}
    (h : ∀ loads, .board loads ∉ moves) : (s.run moves).cache.loads = s.cache.loads := by
  induction moves generalizing s with
  | nil => rfl
  | cons move rest ih =>
    refine (ih (s.step move) fun loads hin => h loads (List.mem_cons_of_mem _ hin)).trans ?_
    refine s.step_loads fun loads heq => h loads ?_
    rw [heq]
    exact List.mem_cons_self

/-- Every queued operation is for an entry of a key. -/
def Own (s : System V) (key : String) : Prop :=
  ∀ op ∈ s.cache.writes.items, ∃ t, op.upserted? = some t ∧ s.cache.contents.keyOf t = some key

/-- Where no caller writes, nothing is queued. -/
theorem items_of_unwritten (s : System V) {move : Move V} (h : move.unwritten = true) :
    (s.step move).cache.writes.items ⊆ s.cache.writes.items := by
  have hquiet (hquiet : move.quiet = true) :
      (s.step move).cache.writes.items ⊆ s.cache.writes.items := by
    rw [(s.step_of_quiet hquiet).2.2.1]
    exact List.Subset.refl _
  cases move with
  | look | board | askLoader | askBatchLoader | lapse | wake | pace | pause | unpause => exact hquiet rfl
  | workWrite =>
    change s.cache.workWrite.writes.items ⊆ s.cache.writes.items
    cases hitems : s.cache.writes.items with
    | nil =>
      rw [Cache.workWrite_of_nil hitems, hitems]
      exact List.Subset.refl _
    | cons op rest =>
      obtain ⟨haside, hwrites, _⟩ := Cache.workWrite_aside hitems
      refine List.Subset.trans haside.writes_subset ?_
      rw [hwrites]
      exact List.subset_cons_self op rest
  | workRead =>
    obtain ⟨reads, places, heq⟩ := s.cache.workRead_frame
    change s.cache.workRead.writes.items ⊆ s.cache.writes.items
    rw [heq]
    exact List.Subset.refl _
  | workFired =>
    obtain ⟨base, haside, hwrites, _⟩ := s.cache.workFired_aside
    change s.cache.workFired.writes.items ⊆ s.cache.writes.items
    refine List.Subset.trans haside.writes_subset ?_
    rw [hwrites]
    exact List.Subset.refl _
  | _ => cases h

theorem Own.step (hown : s.Own key) (h : s.Coherent) {move : Move V}
    (hmove : move.unwritten = true) : (s.step move).Own key := by
  intro op hop
  obtain ⟨t, ht, hkey⟩ := hown op (s.items_of_unwritten hmove hop)
  exact ⟨t, ht, h.step_keyOf move hkey⟩

/-- A key is not disturbed by the operations for its own entries. -/
theorem Own.calm (hown : s.Own key) (h : s.Arranged) {move : Move V}
    (hmove : move.unwritten = true) (hfits : (s.step move).cache.recency.Fitting) :
    s.disturbs key move = false := by
  cases move with
  | workWrite =>
    change s.cache.writeChange.touches key = false
    cases hitems : s.cache.writes.items with
    | nil =>
      unfold Cache.writeChange
      rw [hitems]
      rfl
    | cons op rest =>
      obtain ⟨t, ht, hkey⟩ := hown op (by rw [hitems]; exact List.mem_cons_self)
      obtain ⟨order, hkeeps⟩ := h.keeps ((s.step_onward .workWrite).1.fitting hfits)
      refine Cache.writeChange_of_own hkeeps h.coherent.keyed hitems ht hkey ?_
      change s.cache.workWrite.recency.Fitting at hfits
      rw [(Cache.workWrite_aside hitems).1.recency] at hfits
      cases op <;> cases ht <;> exact hfits
  | look | board | askLoader | askBatchLoader | lapse | wake | pace | pause | unpause => rfl
  | workRead | workFired => rfl
  | _ => cases hmove

theorem Own.undisturbed (hown : s.Own key) (h : s.Arranged) {moves : List (Move V)}
    (hmoves : ∀ move ∈ moves, move.unwritten = true)
    (hfits : (s.run moves).cache.recency.Fitting) : s.Undisturbed key moves := by
  induction moves generalizing s with
  | nil => trivial
  | cons move rest ih =>
    have hmove := hmoves move List.mem_cons_self
    have hnext := ((s.step move).run_onward rest).1.fitting hfits
    exact ⟨hown.calm h hmove hnext, ih (hown.step h.coherent hmove) (h.step move)
      (fun later hin => hmoves later (List.mem_cons_of_mem _ hin)) hfits⟩

/-! ## A load -/

/-- A call of `getOrLoadWith` in the course of whose loader there are some moves. -/
def load (s : System V) (key : String) (loader : Loader V) (ttl : Span)
    (meanwhile : List (Move V)) : LoadAnswer V × System V :=
  match s.cache.beginLoad key with
  | (.done result, c) => (.done result, { s with cache := c })
  | (.pending call, c) =>
    let loading := ({ s with cache := c } : System V).run meanwhile
    let (answer, c) := loading.cache.finishLoad call (loader key) ttl
    (answer, { loading with cache := c })

/-- Without such moves it is the call as a whole. -/
theorem load_at_once (s : System V) (key : String) (loader : Loader V) (ttl : Span) :
    s.load key loader ttl [] =
      ((s.cache.getOrLoadWith key loader ttl).1,
        { s with cache := (s.cache.getOrLoadWith key loader ttl).2 }) := by
  unfold load Cache.getOrLoadWith
  generalize s.cache.beginLoad key = result
  obtain ⟨_ | call, c⟩ := result <;> rfl

variable {loader : Loader V} {ttl : Span} {meanwhile : List (Move V)}

theorem load_of_live {value : V} (h : (s.cache.getWithStatus key).1 = (some value, .exist)) :
    s.load key loader ttl meanwhile =
      (.done (.ok value), { s with cache := (s.cache.getWithStatus key).2 }) := by
  unfold load
  rw [Cache.beginLoad_of_live h]

/-- The state in which the loader of a caller that has missed answers. -/
def loading (s : System V) (key : String) (meanwhile : List (Move V)) : System V :=
  ({ s with cache := s.cache.awaiting key } : System V).run meanwhile

theorem load_of_error {fault : LoaderFault} (hmiss : (s.cache.getWithStatus key).1.2 ≠ .exist)
    (halone : s.cache.loads.inFlight.lookup key = none) (hloader : loader key = .error fault) :
    s.load key loader ttl meanwhile =
      (.done (.error { error := .load fault
                       stale := if (s.cache.getWithStatus key).1.2 = .expired then
                         (s.cache.getWithStatus key).1.1 else none }),
        { s.loading key meanwhile with cache := { (s.loading key meanwhile).cache with
          loads := (s.loading key meanwhile).cache.loads.publish key s.cache.loads.calls.size
            (.error (.load fault)) } }) := by
  unfold load
  rw [Cache.beginLoad_of_miss hmiss halone, hloader]
  rfl

theorem load_of_ok {value : V} (hmiss : (s.cache.getWithStatus key).1.2 ≠ .exist)
    (halone : s.cache.loads.inFlight.lookup key = none) (hloader : loader key = .ok value) :
    s.load key loader ttl meanwhile =
      (.done (.ok value),
        { s.loading key meanwhile with
          cache := { ((s.loading key meanwhile).cache.store key value ttl false).2 with
            loads := ((s.loading key meanwhile).cache.store key value ttl false).2.loads.publish key
              s.cache.loads.calls.size (.ok value) } }) := by
  unfold load
  rw [Cache.beginLoad_of_miss hmiss halone, hloader]
  rfl

/-! ## What is loaded -/

theorem Arranged.loading (h : s.Arranged) (hmiss : (s.cache.getWithStatus key).1.2 ≠ .exist)
    (meanwhile : List (Move V)) : (s.loading key meanwhile).Arranged := by
  have hmoves : ({ s with cache := s.cache.awaiting key } : System V) =
      ((s.step (.look key)).step (.board (s.cache.loads.enter key).2)).step (.askLoader key) := by
    change _ = ({ s with cache := ({ (s.cache.getWithStatus key).2 with
      loads := (s.cache.loads.enter key).2 } : Cache V).record (.loading key) } : System V)
    rw [Cache.getWithStatus_snd_of_miss hmiss]
    rfl
  unfold System.loading
  rw [hmoves]
  exact (((h.step _).step _).step _).run meanwhile

/-- The state in which a value was stored without waiting, and there are some loads. -/
def loaded (s : System V) (key : String) (value : V) (ttl : Span) (loads : SingleFlight V) :
    System V :=
  { s with cache := { (s.cache.store key value ttl false).2 with loads } }

theorem loaded_eq (s : System V) (key : String) (value : V) (ttl : Span)
    (loads : SingleFlight V) :
    s.loaded key value ttl loads = (s.step (.store key value ttl false)).step (.board loads) := by
  unfold loaded
  rw [Cache.store_without_wait]
  rfl

variable {value : V} {loads : SingleFlight V} {later : List (Move V)}

/-- A stored value that was taken is found up to its stamp while nobody disturbs the key. -/
theorem Coherent.get_loaded (h : s.Coherent)
    (haccepted : (s.cache.store key value ttl false).1 = true)
    (hcalm : (s.loaded key value ttl loads).Undisturbed key later)
    (hahead : ∀ moment, s.cache.clock.stampAfter ttl = some moment →
      ((s.loaded key value ttl loads).run later).cache.clock.timestamp < moment) :
    (((s.loaded key value ttl loads).run later).cache.get key).1 = some value := by
  have hstored : (s.step (.store key value ttl false)).Stands key value
      (s.cache.clock.stampAfter ttl) :=
    h.stands_of_store (Or.inr (Cache.accepts_of_store haccepted))
  have hstands : (s.loaded key value ttl loads).Stands key value
      (s.cache.clock.stampAfter ttl) := by
    rw [loaded_eq]
    exact hstored
  have hcoherent : (s.loaded key value ttl loads).Coherent := by
    rw [loaded_eq]
    exact (h.step _).step _
  rw [((hcoherent.stands_run hstands hcalm).lookups fun _ => s.cache.clock.stampAfter_le ttl).2]
  cases hstamp : s.cache.clock.stampAfter ttl with
  | none => rfl
  | some moment => rw [Readings.alive_of_stamp rfl, if_pos (hahead moment hstamp)]

/-- If nothing else is queued, what is queued with a stored value is for the key. -/
theorem Coherent.own_loaded (h : s.Coherent)
    (haccepted : (s.cache.store key value ttl false).1 = true)
    (hqueue : s.cache.writes.items = []) : (s.loaded key value ttl loads).Own key := by
  obtain ⟨t, queued, hqueued, hitems, hslot, _⟩ :=
    Cache.lodge_taken h.keyed (Cache.lodge_of_store haccepted)
  rw [loaded_eq]
  intro op hop
  change op ∈ (s.cache.lodge key value ttl false).2.writes.items at hop
  rw [hitems, hqueue] at hop
  cases List.mem_singleton.mp hop
  exact ⟨t, hqueued, (h.step (.store key value ttl false)).keyed.keyOf_of_occupant hslot⟩

/-- A caller that looks up a key for which no load is in flight has the loader called just if it
finds no live value, and then once; other moves may be made before the loader answers, or none, as
in the call as a whole. The failure of the loader comes with the stale value that the caller found,
and leaves the cache as it was but for the miss and the note of the read. A loaded value is returned
whether the write was taken or not. If it was, the key shows the value up to its stamp while nobody
else disturbs the key, and the worker does not unless more was queued. No load for the key is in
flight any more. -/
theorem misses_call_loader_once {options : Options V} {clock : Clock} {c : Cache V}
    (hc : Cache.create options clock = .ok c) {before : List (Move V)}
    (hs : ({ cache := c } : System V).run before = s)
    (halone : s.cache.loads.inFlight.lookup key = none) {answer : LoadAnswer V} {done : System V}
    (hload : s.load key loader ttl meanwhile = (answer, done)) :
    let seen := (s.cache.getWithStatus key).1
    let asked := s.loading key meanwhile
    s.load key loader ttl [] = ((s.cache.getOrLoadWith key loader ttl).1,
      { s with cache := (s.cache.getOrLoadWith key loader ttl).2 }) ∧
    (seen.2 = .exist → ∃ value, seen.1 = some value ∧ answer = .done (.ok value) ∧
      done = { s with cache := (s.cache.getWithStatus key).2 } ∧
      done.cache.log = s.cache.log ∧ done.cache.loads = s.cache.loads) ∧
    (seen.2 ≠ .exist →
      done.cache.log = asked.cache.log ∧ done.cache.loads.inFlight.lookup key = none ∧
      ((∀ loads, .board loads ∉ meanwhile) →
        done.cache.loads.inFlight = s.cache.loads.inFlight) ∧
      (∀ fault, loader key = .error fault →
        (∃ stale, answer = .done (.error { error := .load fault, stale }) ∧
          (stale.isSome ↔ seen.2 = .expired) ∧ ∀ old, stale = some old → seen.1 = some old) ∧
        done = { asked with cache := { asked.cache with loads := done.cache.loads } }) ∧
      ∀ value, loader key = .ok value →
        answer = .done (.ok value) ∧ done = asked.loaded key value ttl done.cache.loads ∧
        ((asked.cache.store key value ttl false).1 = true → ∀ later : List (Move V),
          (done.Undisturbed key later ∨ asked.cache.writes.items = [] ∧
            (∀ move ∈ later, move.unwritten = true) ∧
            (done.run later).cache.recency.Fitting) →
          (∀ moment, asked.cache.clock.stampAfter ttl = some moment →
            (done.run later).cache.clock.timestamp < moment) →
          ((done.run later).cache.get key).1 = some value)) := by
  intro seen asked
  have harranged : s.Arranged := hs ▸ (arranged_create hc).run before
  refine ⟨s.load_at_once key loader ttl, ?_, ?_⟩
  · intro hlive
    have hsome : seen.1.isSome := (s.cache.getWithStatus_isSome key).mpr (by simp [hlive, seen])
    obtain ⟨value, hvalue⟩ := Option.isSome_iff_exists.mp hsome
    have hseen : seen = (some value, .exist) := Prod.ext hvalue hlive
    rw [load_of_live hseen] at hload
    cases hload
    obtain ⟨reads, counters, heq⟩ := s.cache.getWithStatus_frame key
    refine ⟨value, hvalue, rfl, rfl, ?_, ?_⟩
    · rw [heq]
    · rw [heq]
  · intro hmiss
    have hasked : asked.Arranged := harranged.loading hmiss meanwhile
    have hothers (h : ∀ loads, .board loads ∉ meanwhile) (call : CallId)
        (p : Progress V) :
        (asked.cache.loads.settle key call p).inFlight = s.cache.loads.inFlight := by
      rw [show asked.cache.loads = (s.cache.loads.enter key).2 from loads_run _ h]
      exact SingleFlight.inFlight_settle_enter halone call p
    cases hloader : loader key with
    | error fault =>
      rw [load_of_error hmiss halone hloader] at hload
      cases hload
      refine ⟨rfl, SingleFlight.lookup_settle _ _ _ _, fun h => hothers h _ _, ?_, nofun⟩
      rintro _ ⟨rfl⟩
      exact ⟨⟨_, rfl, s.cache.stale_isSome key, fun old => s.cache.eq_of_stale key⟩, rfl⟩
    | ok value =>
      rw [load_of_ok hmiss halone hloader] at hload
      obtain ⟨hsame, hlog⟩ := asked.cache.lodge_loads_log key value ttl false
      rw [← Cache.store_without_wait] at hsame hlog
      cases hload
      refine ⟨hlog, SingleFlight.lookup_settle _ _ _ _, ?_, nofun, ?_⟩
      · intro h
        dsimp only
        rw [hsame]
        exact hothers h _ _
      · rintro _ ⟨rfl⟩
        refine ⟨rfl, rfl, ?_⟩
        intro haccepted later hlater hahead
        refine hasked.coherent.get_loaded haccepted ?_ hahead
        rcases hlater with hcalm | ⟨hqueue, hunwritten, hfits⟩
        · exact hcalm
        · refine (hasked.coherent.own_loaded haccepted hqueue).undisturbed ?_ hunwritten hfits
          rw [loaded_eq]
          exact (hasked.step _).step _

/-- A key that was missing is found after its load, also once the worker has linked the entry. -/
theorem misses_call_loader_once_then_hit :
    ∃ c : Cache Nat, Cache.create {} { unix := 0 } = .ok c ∧
      ∃ done, ({ cache := c } : System Nat).load "k" (fun _ => .ok 1) (.ofMillis 10)
          [.lapse 3 3] = (.done (.ok 1), done) ∧
        ((done.run [.workWrite, .lapse 4 4]).cache.get "k").1 = some 1 := by
  let options : Options Nat := {}
  obtain ⟨c, hc⟩ := Cache.exists_create (show options.shards ≤ _ by decide) { unix := 0 }
  let s : System Nat := { cache := c }
  let asked := s.loading "k" [.lapse 3 3]
  let answer := s.load "k" (fun _ => .ok 1) (.ofMillis 10) [.lapse 3 3]
  let last := answer.2.run [.workWrite, .lapse 4 4]
  have hcreated : c.options = options := Cache.options_create hc
  have hvacant : asked.cache.contents.occupant? "k" = none := Cache.vacant_create hc "k"
  have hmiss : (s.cache.getWithStatus "k").1.2 ≠ .exist := by
    rw [Cache.getWithStatus_fst, Cache.reading_create hc]
    exact nofun
  obtain ⟨contents, _, heq⟩ := Cache.create_eq_ok hc
  have halone : s.cache.loads.inFlight.lookup "k" = none := by
    change c.loads.inFlight.lookup "k" = none
    rw [heq]
    rfl
  have hload : s.load "k" (fun _ => .ok 1) (.ofMillis 10) [.lapse 3 3] = (answer.1, answer.2) := rfl
  have hqueue : asked.cache.writes.items = [] := by
    change c.writes.items = []
    rw [heq]
  have haccepts : asked.cache.accepts false = true := by
    change c.accepts false = true
    rw [heq]
    rfl
  have haccepted : (asked.cache.store "k" 1 (.ofMillis 10) false).1 = true := by
    rw [Cache.store_without_wait, Cache.lodge_of_vacant hvacant, if_pos haccepts]
  have hclock : asked.cache.clock = { unix := 3, sinceStart := 3 } := by
    change ({ unix := c.clock.unix + 3, sinceStart := c.clock.sinceStart + 3 } : Clock) = _
    rw [heq]
    rfl
  have hbefore : ({ cache := c } : System Nat).run [] = s := rfl
  obtain ⟨_, _, hmissed⟩ := misses_call_loader_once hc hbefore halone hload
  obtain ⟨_, _, _, _, hfound⟩ := hmissed hmiss
  obtain ⟨hanswer, hdone, hkept⟩ := hfound 1 rfl
  have harranged : answer.2.Arranged := by
    rw [hdone, loaded_eq]
    exact ((((arranged_create hc).loading hmiss [.lapse 3 3]).step _).step _)
  have hfits : last.cache.recency.Fitting := by
    have hoptions : last.cache.options = options := by
      rw [run_options, hdone, loaded_eq, step_options, step_options]
      exact hcreated
    left
    rw [(harranged.run [.workWrite, .lapse 4 4]).capacity, hoptions]
    decide
  have hnow : last.cache.clock.timestamp = 7 := by
    have hsame : answer.2.cache.clock = asked.cache.clock := by
      rw [hdone, loaded_eq]
      exact (asked.cache.lodge_frame "k" 1 (.ofMillis 10) false).2.1
    change clampWord ((answer.2.step .workWrite).cache.clock.unix + 4).toNat = 7
    rw [clock_of_worker _ rfl, hsame, hclock]
    rfl
  refine ⟨c, hc, answer.2, Prod.ext hanswer rfl, ?_⟩
  refine hkept haccepted [.workWrite, .lapse 4 4] (Or.inr ⟨hqueue, by decide, hfits⟩) ?_
  intro moment hmoment
  rw [hnow]
  rw [hclock] at hmoment
  cases hmoment
  decide

end System

end TimedCache
