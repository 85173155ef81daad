import TimedCache.Proofs.Cache.Ledger
import TimedCache.Proofs.Cache.Outline
import TimedCache.Proofs.Expiry.Heeding

/-!
What the worker does with the timers, as long as it goes on. It renews the timer of an entry that has
a slot, and removes the timers of entries that have lost theirs; a fired timer is acknowledged first.
-/

namespace TimedCache

namespace Cache

variable {V : Type} {c : Cache V} {s : Serial}

/-- The moment at which an entry must be gone. -/
def endOf? (c : Cache V) (s : Serial) : Option Nat :=
  (c.contents.entry? s).bind (·.evictAt c.options.expireDelay)

/-- The timers with the one of an entry renewed. -/
def renewed (c : Cache V) (s : Serial) : Expiry :=
  match c.contents.keyOf s with
  | some key => c.expiry.renew c.clock key s (c.endOf? s)
  | none => c.expiry

/-- The timers without the one of an entry. -/
def disowned (c : Cache V) (s : Serial) : Expiry :=
  match c.contents.keyOf s with
  | some key => (c.expiry.removeOwned key s).2
  | none => c.expiry

/-! ## Callbacks, timers and the worker's operations -/

theorem expiry_announce {hook : Option Hook} {reason : Departure}
    (halive : (c.announce hook reason s).isClosed = false) :
    (c.announce hook reason s).expiry = c.expiry := by
  unfold announce at halive ⊢
  split at halive
  · dsimp only at halive ⊢
    split at halive
    · cases halive
    · rename_i hfine
      rw [if_neg hfine]
      rfl
  · rfl

theorem expiry_schedule (halive : (c.schedule s).isClosed = false) :
    (c.schedule s).expiry = c.renewed s ∧
      (c.endOf? s ≠ none → c.expiry.atLastTick = false) := by
  unfold schedule at halive ⊢
  unfold renewed endOf? Contents.keyOf
  cases he : c.contents.entry? s with
  | none => exact ⟨rfl, fun hend => absurd rfl hend⟩
  | some e =>
    rw [he] at halive
    dsimp only [Option.map_some, Option.bind_some] at halive ⊢
    cases hend : e.evictAt c.options.expireDelay with
    | none => exact ⟨rfl, fun hsome => absurd rfl hsome⟩
    | some moment =>
      rw [hend] at halive
      dsimp only at halive ⊢
      cases hlast : c.expiry.atLastTick with
      | true =>
        rw [hlast] at halive
        cases halive
      | false => exact ⟨rfl, fun _ => rfl⟩

theorem expiry_retire (halive : (c.retire s).isClosed = false) :
    (c.retire s).expiry = c.disowned s := by
  unfold retire at halive ⊢
  unfold disowned Contents.keyOf
  cases he : c.contents.entry? s with
  | none => rfl
  | some e =>
    rw [he] at halive
    exact expiry_announce halive

/-- The timers once an entry was added to the list. -/
def retimed (c : Cache V) (s : Serial) : Expiry :=
  if (c.added s).contents.occupies s && ((c.added s).contents.handle? s).isSome then
    (c.added s).renewed s
  else c.expiry

theorem expiry_timed (halive : (c.timed s).isClosed = false) :
    (c.timed s).expiry = c.retimed s ∧
      ((c.added s).contents.occupies s && ((c.added s).contents.handle? s).isSome →
        (c.added s).endOf? s ≠ none → c.expiry.atLastTick = false) := by
  unfold timed at halive ⊢
  unfold retimed
  split at halive
  · rename_i hlinked
    obtain ⟨hexpiry, hlast⟩ := expiry_schedule halive
    rw [if_pos hlinked, if_pos hlinked]
    exact ⟨hexpiry, fun _ => hlast⟩
  · rename_i hunlinked
    rw [if_neg hunlinked, if_neg hunlinked]
    exact ⟨rfl, fun hlinked => absurd hlinked hunlinked⟩

/-- Linking an entry renews its timer, and removes that of the entry that gives way. -/
theorem expiry_upsert (halive : (c.upsert s).isClosed = false) :
    (c.timed s).isClosed = false ∧
      (c.upsert s).expiry = match (c.recency.add c.contents s).1 with
        | some victim => ({ c.added s with expiry := c.retimed s } : Cache V).disowned victim
        | none => c.retimed s := by
  rw [upsert_eq] at halive ⊢
  cases hvictim : (c.recency.add c.contents s).1 with
  | none =>
    rw [hvictim] at halive
    exact ⟨halive, (expiry_timed halive).1⟩
  | some victim =>
    rw [hvictim] at halive
    dsimp only at halive ⊢
    cases hclosed : (c.timed s).isClosed with
    | true =>
      rw [hclosed, if_pos rfl, hclosed] at halive
      cases halive
    | false =>
      rw [hclosed, if_neg Bool.false_ne_true] at halive
      refine ⟨rfl, ?_⟩
      rw [if_neg Bool.false_ne_true, expiry_retire halive]
      unfold disowned
      rw [(c.timed_aside s).contents, (expiry_timed hclosed).1]

theorem expiry_bury (halive : (c.bury s).isClosed = false) :
    (c.bury s).expiry = (c.removed s).disowned s := by
  rw [bury_eq] at halive ⊢
  unfold disowned Contents.keyOf
  cases he : (c.removed s).contents.entry? s with
  | none => rfl
  | some e =>
    rw [he] at halive
    exact expiry_announce halive

/-- The entry that a fired timer finds before its end: the one the timer was set for, if the timer
is still on record, the entry still holds the slot and its end was put off since. -/
def early? (c : Cache V) (id : TimerId) (key : String) : Option Serial :=
  (c.expiry.acknowledge key id).1.filter fun t =>
    decide (c.contents.occupant? key = some t) &&
      (c.endOf? t).any fun moment => decide (c.clock.timestamp < moment)

/-- A fired timer is acknowledged, and set anew for an entry found before its end. -/
theorem expiry_expire (hkeyed : c.contents.WellKeyed) {id : TimerId} {key : String}
    (halive : (c.expire id key).isClosed = false) :
    (c.expire id key).expiry =
        (match c.early? id key with
          | some t => (c.expiry.acknowledge key id).2.renew c.clock key t (c.endOf? t)
          | none => (c.expiry.acknowledge key id).2) ∧
      (c.early? id key ≠ none → (c.expiry.acknowledge key id).2.atLastTick = false) := by
  unfold expire at halive ⊢
  unfold early?
  generalize c.expiry.acknowledge key id = result at halive ⊢
  obtain ⟨_ | t, expiry⟩ := result
  · exact ⟨rfl, fun hsome => absurd rfl hsome⟩
  · dsimp only [Option.filter] at halive ⊢
    by_cases ht : c.contents.occupant? key = some t
    · have hend : c.endOf? t = (c.contents.entry? t).bind (·.evictAt c.options.expireDelay) := rfl
      simp only [ht, if_true, decide_true, Bool.true_and] at halive ⊢
      cases hmoment : c.endOf? t with
      | none =>
        rw [← hend, hmoment]
        exact ⟨rfl, fun hsome => absurd rfl hsome⟩
      | some moment =>
        rw [← hend, hmoment] at halive ⊢
        dsimp only at halive ⊢
        by_cases hle : moment ≤ c.clock.timestamp
        · rw [if_pos hle] at halive ⊢
          have hdue : ¬ (Option.any (fun m => decide (c.clock.timestamp < m))
              (some moment)) = true := by simpa using hle
          rw [if_neg hdue]
          refine ⟨?_, fun hsome => absurd rfl hsome⟩
          generalize c.recency.remove c.contents t = outcome at halive ⊢
          obtain ⟨_ | u, recency, contents⟩ := outcome
          · rfl
          · exact expiry_announce halive
        · rw [if_neg hle] at halive ⊢
          have hearly : Option.any (fun m => decide (c.clock.timestamp < m))
              (some moment) = true := by simpa using hle
          rw [if_pos hearly]
          obtain ⟨hexpiry, hlast⟩ := expiry_schedule halive
          have hsame : ({ c with expiry } : Cache V).endOf? t = some moment := hmoment
          rw [hexpiry]
          unfold renewed
          rw [hsame]
          dsimp only
          rw [hkeyed.keyOf_of_occupant ht, hmoment]
          exact ⟨rfl, fun _ => hlast (by rw [hsame]; exact nofun)⟩
    · simp only [ht, if_false, decide_false, Bool.false_and]
      exact ⟨rfl, fun hsome => absurd rfl hsome⟩

/-! ## All operations alike -/

/-- The second timers are the first after some were renewed for entries that have a slot, and after
some of entries that have none were removed. -/
inductive Drift (c : Cache V) : Expiry → Expiry → Prop where
  | refl (q : Expiry) : Drift c q q
  | renew {q q' : Expiry} {key : String} {t : Serial} (h : Drift c q q')
      (ht : c.contents.occupant? key = some t)
      (hlast : c.endOf? t ≠ none → q'.atLastTick = false) :
      Drift c q (q'.renew c.clock key t (c.endOf? t))
  | disown {q q' : Expiry} {t : Serial} (h : Drift c q q')
      (ht : ∀ key, c.contents.occupant? key ≠ some t) (key : String) :
      Drift c q (q'.removeOwned key t).2

namespace Drift

variable {q q' : Expiry} {fired : List (TimerId × String)}

theorem tidy (h : Drift c q q') (hq : q.Tidy fired) : q'.Tidy fired := by
  induction h with
  | refl => exact hq
  | renew _ _ hlast ih => exact ih.renew hlast _ _ _
  | disown _ _ key ih => exact ih.removeOwned key _

theorem frame (h : Drift c q q') : q'.timer.tick = q.timer.tick ∧
    q'.timer.wheel.current = q.timer.wheel.current := by
  induction h with
  | refl => exact ⟨rfl, rfl⟩
  | renew _ _ _ ih =>
    obtain ⟨htick, hcurrent⟩ := Expiry.renew_frame _ c.clock _ _ _
    exact ⟨htick.trans ih.1, hcurrent.trans ih.2⟩
  | disown _ _ key ih =>
    obtain ⟨htick, hcurrent⟩ := Expiry.removeOwned_frame _ key _
    exact ⟨htick.trans ih.1, hcurrent.trans ih.2⟩

/-- A timer that was not on record before is one of an entry that has a slot. -/
theorem alarm (h : Drift c q q') {key : String} {alarm : Alarm}
    (halarm : q'.alarms[key]? = some alarm) :
    q.alarms[key]? = some alarm ∨ c.contents.occupant? key = some alarm.owner := by
  induction h with
  | refl => exact Or.inl halarm
  | @renew r other t _ ht _ ih =>
    rcases eq_or_ne key other with rfl | hne
    · rw [Expiry.owner_of_renew halarm]
      exact Or.inr ht
    · rw [Expiry.alarms_renew_of_ne _ _ _ _ _ hne] at halarm
      exact ih halarm
  | disown _ _ other ih =>
    rw [Expiry.alarms_removeOwned] at halarm
    split at halarm
    · cases halarm
    · exact ih halarm

/-- The timer of an entry that has a slot goes on heeding the entry's end. -/
theorem heeds (h : Drift c q q') (hq : q.Tidy fired)
    (hcurrent : q.timer.wheel.current ≤ c.clock.reached q.timer.tick.millis)
    {key : String} {t : Serial} {moment : Nat} (ht : c.contents.occupant? key = some t)
    (hend : c.endOf? t = some moment) (hword : moment ≤ maxWord)
    (hheeds : q.Heeds c.clock key t moment) : q'.Heeds c.clock key t moment := by
  induction h with
  | refl => exact hheeds
  | @renew r other u hr hu hlast ih =>
    rcases eq_or_ne key other with rfl | hne
    · cases Option.some.inj (ht.symm.trans hu)
      rw [hend]
      obtain ⟨htick, hsame⟩ := hr.frame
      rw [← htick, ← hsame] at hcurrent
      exact (hr.tidy hq).heeds_replace c.clock hcurrent key t hword
    · exact (hr.tidy hq).heeds_renew_of_ne hne u _ ih
  | @disown r u hr hu other ih =>
    refine (hr.tidy hq).heeds_removeOwned ?_ ih
    rintro rfl
    exact hu key ht

end Drift

/-- The timers once the worker has taken its message. -/
def taken (c : Cache V) : Move V → Expiry
  | .workWrite => if c.writes.items.head? = some .clear then c.expiry.clear else c.expiry
  | .workFired =>
    match c.fired with
    | (id, key) :: _ => (c.expiry.acknowledge key id).2
    | [] => c.expiry
  | _ => c.expiry

theorem Aside.endOf?_eq {c' : Cache V} (h : Aside c c') (t : Serial) : c'.endOf? t = c.endOf? t := by
  unfold endOf?
  rw [h.contents, h.options]

theorem drift_upsert (hkeyed : c.contents.WellKeyed) (halive : (c.upsert s).isClosed = false) :
    Drift (c.upsert s) c.expiry (c.upsert s).expiry := by
  have haside := c.upsert_aside s
  obtain ⟨htimed, hexpiry⟩ := expiry_upsert halive
  obtain ⟨_, hlast⟩ := expiry_timed htimed
  have hvacated := (Recency.add_vacated hkeyed c.recency s).1
  have hretimed : Drift (c.upsert s) c.expiry (c.retimed s) := by
    unfold retimed
    split
    · rename_i hlinked
      obtain ⟨e, he, hs⟩ := Contents.occupies_iff.mp (Bool.and_eq_true_iff.mp hlinked).1
      unfold renewed
      rw [Contents.keyOf_of_entry he, ← haside.endOf?_eq s]
      dsimp only
      rw [show (c.added s).clock = (c.upsert s).clock from haside.clock.symm]
      refine .renew (.refl _) ?_ ?_
      · rw [haside.contents]
        exact hs
      · rw [haside.endOf?_eq s]
        exact hlast hlinked
    · exact .refl _
  rw [hexpiry]
  cases hvictim : (c.recency.add c.contents s).1 with
  | none => exact hretimed
  | some victim =>
    dsimp only
    unfold disowned
    cases (c.added s).contents.keyOf victim with
    | none => exact hretimed
    | some key =>
      refine hretimed.disown ?_ key
      intro other hother
      rw [haside.contents] at hother
      exact ((hvacated.occupant_iff other victim).mp hother).2 hvictim

theorem drift_bury (hkeyed : c.contents.WellKeyed) (halive : (c.bury s).isClosed = false) :
    Drift (c.bury s) c.expiry (c.bury s).expiry := by
  rw [expiry_bury halive]
  unfold disowned
  cases (c.removed s).contents.keyOf s with
  | none => exact .refl _
  | some key =>
    refine (Drift.refl _).disown ?_ key
    intro other hother
    rw [(c.bury_aside s).contents] at hother
    have hvacated := Recency.remove_vacated hkeyed c.recency s
    exact ((hvacated.occupant_iff other s).mp hother).2 rfl

/-- An entry that a fired timer finds before its end is not removed. -/
theorem fallen?_of_early {id : TimerId} {key : String} {t : Serial}
    (h : c.early? id key = some t) :
    c.fallen? id key = none ∧ c.contents.occupant? key = some t := by
  obtain ⟨howner, hcond⟩ := Option.filter_eq_some_iff.mp h
  rw [Bool.and_eq_true_iff, decide_eq_true_iff, Option.any_eq_true] at hcond
  obtain ⟨hslot, moment, hmoment, hlate⟩ := hcond
  refine ⟨?_, hslot⟩
  unfold fallen?
  rw [howner, Option.filter_some, if_neg]
  rw [hslot, show (c.contents.entry? t).bind _ = some moment from hmoment]
  simpa using hlate

theorem drift_expire (hkeyed : c.contents.WellKeyed) {id : TimerId} {key : String}
    (halive : (c.expire id key).isClosed = false) :
    Drift (c.expire id key) (c.expiry.acknowledge key id).2 (c.expire id key).expiry := by
  obtain ⟨hexpiry, hlast⟩ := expiry_expire hkeyed halive
  have haside := c.expire_aside id key
  rw [hexpiry]
  cases ht : c.early? id key with
  | none => exact .refl _
  | some t =>
    obtain ⟨hstays, hslot⟩ := fallen?_of_early ht
    rw [hstays] at haside
    dsimp only
    rw [← haside.endOf?_eq t, ← haside.clock]
    refine .renew (.refl _) ?_ fun _ => hlast (by rw [ht]; exact nofun)
    rw [haside.contents]
    exact hslot

/-- The timers are in order, and the wheel is not ahead of the clock. -/
structure Clockwork (c : Cache V) : Prop where
  tidy : c.expiry.Tidy c.fired
  tick : c.expiry.timer.tick = max c.options.tick (.ofMillis 1)
  current : c.expiry.timer.wheel.current ≤ c.clock.reached c.expiry.timer.tick.millis

theorem clockwork_create {options : Options V} {clock : Clock} {c : Cache V}
    (h : create options clock = .ok c) : c.Clockwork := by
  obtain ⟨contents, _, rfl⟩ := create_eq_ok h
  exact ⟨Expiry.tidy_start _ _, rfl, Nat.zero_le _⟩

end Cache

/-- Whether a move may change clocks or timers. -/
def Move.timed {V : Type} : Move V → Bool
  | .lapse .. | .wake | .halt | .workWrite | .workRead | .workFired => true
  | _ => false

namespace System

variable {V : Type} {s : System V}

theorem worker_drift (hkeyed : s.cache.contents.WellKeyed) {move : Move V}
    (hworker : move.ofWorker = true) (halive : (s.step move).cache.isClosed = false) :
    (s.step move).cache.Drift (s.cache.taken move) (s.step move).cache.expiry := by
  cases move with
  | workWrite =>
    change s.cache.workWrite.isClosed = false at halive
    change s.cache.workWrite.Drift (s.cache.taken .workWrite) s.cache.workWrite.expiry
    unfold Cache.taken
    cases hitems : s.cache.writes.items with
    | nil =>
      rw [Cache.workWrite_of_nil hitems]
      exact .refl _
    | cons op rest =>
      rw [Cache.workWrite_of_cons hitems] at halive ⊢
      cases op with
      | set t => exact Cache.drift_upsert (c := s.cache.received rest) hkeyed halive
      | update t => exact Cache.drift_upsert (c := s.cache.received rest) hkeyed halive
      | delete t => exact Cache.drift_bury (c := s.cache.received rest) hkeyed halive
      | clear => exact .refl _
      | flush => exact .refl _
  | workRead =>
    obtain ⟨reads, places, heq⟩ := s.cache.workRead_frame
    change s.cache.workRead.Drift s.cache.expiry s.cache.workRead.expiry
    rw [heq]
    exact .refl _
  | workFired =>
    change s.cache.workFired.isClosed = false at halive
    change s.cache.workFired.Drift (s.cache.taken .workFired) s.cache.workFired.expiry
    unfold Cache.taken
    cases hfired : s.cache.fired with
    | nil =>
      rw [Cache.workFired_of_nil hfired]
      exact .refl _
    | cons task rest =>
      rw [Cache.workFired_of_cons hfired] at halive ⊢
      exact Cache.drift_expire (c := { s.cache with fired := rest }) hkeyed halive
  | _ => cases hworker

/-! ## The clockwork -/

theorem step_of_not_timed (s : System V) {move : Move V} (h : move.timed = false) :
    (s.step move).cache.clock = s.cache.clock ∧ (s.step move).cache.expiry = s.cache.expiry ∧
      (s.step move).cache.fired = s.cache.fired := by
  cases move with
  | look key =>
    obtain ⟨reads, counters, heq⟩ := s.cache.getWithStatus_frame key
    change (s.cache.getWithStatus key).2.clock = _ ∧ (s.cache.getWithStatus key).2.expiry = _ ∧
      (s.cache.getWithStatus key).2.fired = _
    rw [heq]
    exact ⟨rfl, rfl, rfl⟩
  | store key value ttl wait =>
    change (s.cache.lodge key value ttl wait).2.clock = _ ∧
      (s.cache.lodge key value ttl wait).2.expiry = _ ∧
      (s.cache.lodge key value ttl wait).2.fired = _
    cases hs : s.cache.contents.occupant? key with
    | some t =>
      rw [Cache.lodge_of_occupant hs]
      split <;> exact ⟨rfl, rfl, rfl⟩
    | none =>
      rw [Cache.lodge_of_vacant hs]
      split <;> exact ⟨rfl, rfl, rfl⟩
  | strandSet key value ttl =>
    rw [step_strandSet]
    exact ⟨rfl, rfl, rfl⟩
  | strandDelete key =>
    rw [step_strandDelete]
    exact ⟨rfl, rfl, rfl⟩
  | detach key =>
    rw [step_detach]
    exact ⟨rfl, rfl, rfl⟩
  | sendDelete t =>
    rw [step_sendDelete]
    cases s.cache.isClosed <;> split <;> exact ⟨rfl, rfl, rfl⟩
  | offerDelete t =>
    rw [step_offerDelete]
    cases s.cache.isClosed || s.cache.writes.isFull <;> split <;> exact ⟨rfl, rfl, rfl⟩
  | clear =>
    rw [step_clear]
    cases s.cache.isClosed <;> exact ⟨rfl, rfl, rfl⟩
  | flush =>
    rw [step_flush]
    cases s.cache.isClosed <;> exact ⟨rfl, rfl, rfl⟩
  | board | askLoader | askBatchLoader | pace | pause | unpause => exact ⟨rfl, rfl, rfl⟩
  | _ => cases h

/-- The worker takes the first of the fired timers, or none, and does not move the clocks. -/
theorem worker_frame {move : Move V} (hworker : move.ofWorker = true)
    (halive : (s.step move).cache.isClosed = false) :
    (s.step move).cache.clock = s.cache.clock ∧
      (s.step move).cache.fired =
        if move matches .workFired then s.cache.fired.tail else s.cache.fired := by
  cases move with
  | workWrite =>
    obtain ⟨hclock, _, _, hfired, _⟩ := Cache.workWrite_frame halive
    exact ⟨hclock, hfired⟩
  | workRead =>
    obtain ⟨reads, places, heq⟩ := s.cache.workRead_frame
    change s.cache.workRead.clock = _ ∧ s.cache.workRead.fired = s.cache.fired
    rw [heq]
    exact ⟨rfl, rfl⟩
  | workFired =>
    obtain ⟨hclock, _, _, hfired, _⟩ := Cache.workFired_frame halive
    exact ⟨hclock, hfired⟩
  | _ => cases hworker

/-- Taking a message leaves the timers in order. -/
theorem clockwork_taken (h : s.cache.Clockwork) {move : Move V} (hworker : move.ofWorker = true)
    (halive : (s.step move).cache.isClosed = false) :
    (s.cache.taken move).Tidy (s.step move).cache.fired ∧
      (s.cache.taken move).timer.tick = s.cache.expiry.timer.tick ∧
      (s.cache.taken move).timer.wheel.current = s.cache.expiry.timer.wheel.current := by
  rw [(worker_frame hworker halive).2]
  cases move with
  | workWrite =>
    change (if _ then _ else _ : Expiry).Tidy s.cache.fired ∧ _
    unfold Cache.taken
    dsimp only
    split
    · exact ⟨h.tidy.clear, rfl, rfl⟩
    · exact ⟨h.tidy, rfl, rfl⟩
  | workRead => exact ⟨h.tidy, rfl, rfl⟩
  | workFired =>
    have htidy := h.tidy
    unfold Cache.taken
    cases hfired : s.cache.fired with
    | nil =>
      rw [hfired] at htidy
      exact ⟨htidy, rfl, rfl⟩
    | cons task rest =>
      obtain ⟨id, key⟩ := task
      rw [hfired] at htidy
      have htimer := s.cache.expiry.acknowledge_frame key id
      exact ⟨htidy.acknowledge, congrArg (·.tick) htimer, congrArg (·.wheel.current) htimer⟩
  | _ => cases hworker

/-- While the worker lives, the clockwork goes on. -/
theorem clockwork_step (h : s.cache.Clockwork) (hkeyed : s.cache.contents.WellKeyed)
    {move : Move V} (halive : (s.step move).cache.isClosed = false) :
    (s.step move).cache.Clockwork := by
  have hoptions := s.step_options move
  cases htimed : move.timed with
  | false =>
    obtain ⟨hclock, hexpiry, hfired⟩ := s.step_of_not_timed htimed
    refine ⟨?_, ?_, ?_⟩
    · rw [hexpiry, hfired]
      exact h.tidy
    · rw [hexpiry, hoptions]
      exact h.tick
    · rw [hexpiry, hclock]
      exact h.current
  | true =>
    have hworks (hworker : move.ofWorker = true) : (s.step move).cache.Clockwork := by
      obtain ⟨htidy, htick, hcurrent⟩ := clockwork_taken h hworker halive
      have hdrift := worker_drift hkeyed hworker halive
      obtain ⟨htick', hcurrent'⟩ := hdrift.frame
      refine ⟨hdrift.tidy htidy, ?_, ?_⟩
      · rw [htick', htick, hoptions]
        exact h.tick
      · rw [hcurrent', hcurrent, htick', htick, (worker_frame hworker halive).1]
        exact h.current
    cases move with
    | lapse ms steady =>
      exact ⟨h.tidy, h.tick, h.current.trans (s.cache.clock.reached_mono ms steady _)⟩
    | wake =>
      obtain ⟨_, htick, hcurrent, _⟩ := h.tidy.wake_frame s.cache.clock
      refine ⟨h.tidy.wake _, htick.trans h.tick, ?_⟩
      change (s.cache.expiry.wake s.cache.clock).2.timer.wheel.current ≤
        s.cache.clock.reached (s.cache.expiry.wake s.cache.clock).2.timer.tick.millis
      rw [hcurrent, htick]
      exact Nat.max_le.mpr ⟨h.current, Nat.le_refl _⟩
    | halt => cases halive
    | workWrite | workRead | workFired => exact hworks rfl
    | _ => cases htimed

/-! ## A worker that goes on -/

theorem isClosed_expire (c : Cache V) (id : TimerId) (key : String) (h : c.options.Tame)
    (htick : c.expiry.atLastTick = false) : (c.expire id key).isClosed = c.isClosed := by
  have hlast : (c.expiry.acknowledge key id).2.atLastTick = false := by
    unfold Expiry.atLastTick
    rw [Expiry.acknowledge_frame]
    exact htick
  unfold Cache.expire
  generalize c.expiry.acknowledge key id = result at hlast ⊢
  obtain ⟨_ | t, expiry⟩ := result
  · rfl
  · dsimp only
    split
    · split
      · rfl
      · split
        · generalize c.recency.remove c.contents t = outcome
          obtain ⟨_ | u, recency, contents⟩ := outcome
          · rfl
          · exact Cache.isClosed_announce _ _ _ fun hook heq => h hook (Or.inr heq)
        · exact Cache.isClosed_schedule _ _ hlast
    · rfl

/-- With ticks of more than a millisecond a wheel never comes to the last tick. -/
theorem atLastTick_of_clockwork {c : Cache V} (h : c.Clockwork)
    (htick : 2 ≤ (max c.options.tick (.ofMillis 1)).millis) : c.expiry.atLastTick = false := by
  have hcurrent := h.current
  rw [h.tick] at hcurrent
  have hle : c.clock.reached (max c.options.tick (.ofMillis 1)).millis ≤ maxWord / 2 :=
    Nat.div_le_div (clampWord_le _) htick (by decide)
  unfold Expiry.atLastTick Timer.atLastTick Wheel.atLastTick
  rw [decide_eq_false_iff_not]
  exact Nat.not_le.mpr ((hcurrent.trans hle).trans_lt (by decide))

/-- Callers do not stop the worker, except to end it. -/
theorem isClosed_of_caller (s : System V) {move : Move V} (hcaller : move.ofWorker = false)
    (hmove : move ≠ .halt) : (s.step move).cache.isClosed = s.cache.isClosed := by
  obtain ⟨more, hwrites⟩ := s.writes_of_caller hcaller hmove
  exact congrArg (·.closed) hwrites

/-- Nothing stops the worker but a callback that fails, the last tick and its end. -/
theorem isClosed_step (h : s.cache.Clockwork) (htame : s.cache.options.Tame)
    (htick : 2 ≤ (max s.cache.options.tick (.ofMillis 1)).millis) {move : Move V}
    (hmove : move ≠ .halt) : (s.step move).cache.isClosed = s.cache.isClosed := by
  have hlast := atLastTick_of_clockwork h htick
  cases move with
  | workWrite =>
    change s.cache.workWrite.isClosed = s.cache.isClosed
    cases hitems : s.cache.writes.items with
    | nil => rw [Cache.workWrite_of_nil hitems]
    | cons op rest =>
      rw [Cache.workWrite_of_cons hitems]
      exact (s.cache.received rest).isClosed_apply op htame hlast
  | workRead =>
    obtain ⟨reads, places, heq⟩ := s.cache.workRead_frame
    change s.cache.workRead.isClosed = s.cache.isClosed
    rw [heq]
    rfl
  | workFired =>
    change s.cache.workFired.isClosed = s.cache.isClosed
    unfold Cache.workFired
    split
    · exact isClosed_expire _ _ _ htame hlast
    · rfl
  | _ => exact s.isClosed_of_caller rfl hmove

theorem alive_run (h : s.cache.Clockwork) (hcoherent : s.Coherent)
    (htame : s.cache.options.Tame) (htick : 2 ≤ (max s.cache.options.tick (.ofMillis 1)).millis)
    (halive : s.cache.isClosed = false) {moves : List (Move V)} (hmoves : .halt ∉ moves) :
    (s.run moves).cache.isClosed = false := by
  induction moves generalizing s with
  | nil => exact halive
  | cons move rest ih =>
    have hmove : move ≠ .halt := fun heq => hmoves (heq ▸ List.mem_cons_self)
    have hnext := (isClosed_step h htame htick hmove).trans halive
    have hoptions := s.step_options move
    refine ih (clockwork_step h hcoherent.keyed hnext) (hcoherent.step move) ?_ ?_ hnext
      fun hin => hmoves (List.mem_cons_of_mem move hin)
    · rw [hoptions]
      exact htame
    · rw [hoptions]
      exact htick

/-- A new cache whose callbacks do not fail and whose ticks are not the shortest has a living worker
until the worker is told to stop. -/
theorem alive_of_tame {options : Options V} {clock : Clock} {c : Cache V}
    (hc : Cache.create options clock = .ok c) (htame : options.Tame)
    (htick : 2 ≤ (max options.tick (.ofMillis 1)).millis) {moves : List (Move V)}
    (hmoves : .halt ∉ moves) : (({ cache := c } : System V).run moves).cache.isClosed = false := by
  have hcoherent := coherent_create hc
  have hclockwork := Cache.clockwork_create hc
  obtain ⟨contents, _, rfl⟩ := Cache.create_eq_ok hc
  exact alive_run hclockwork hcoherent htame htick rfl hmoves

end System

end TimedCache
