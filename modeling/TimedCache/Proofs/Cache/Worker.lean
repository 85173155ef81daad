import TimedCache.Cache.Access
import TimedCache.Cache.Lifecycle
import TimedCache.Proofs.Recency.Slots

/-!
What a step of the worker changes. Callbacks, timers and counters leave contents and list alone,
though a callback that fails empties the queues as it stops the worker. What remains of a step is
one operation of the list.
-/

namespace TimedCache

namespace Cache

variable {V : Type}

/-- The second state differs from the first in timers, counters and the log at most, or the worker
has stopped besides. -/
structure Aside (c c' : Cache V) : Prop where
  options : c'.options = c.options
  clock : c'.clock = c.clock
  contents : c'.contents = c.contents
  recency : c'.recency = c.recency
  loads : c'.loads = c.loads
  stint : c'.stint = c.stint
  queues : (c'.writes = c.writes ∧ c'.reads = c.reads ∧ c'.fired = c.fired ∧ c'.paused = c.paused)
    ∨ (c'.writes = c.writes.close ∧ c'.reads = c.reads.close ∧ c'.fired = [] ∧ c'.paused = false)

namespace Aside

variable {c c' c'' : Cache V}

theorem refl (c : Cache V) : Aside c c :=
  ⟨rfl, rfl, rfl, rfl, rfl, rfl, Or.inl ⟨rfl, rfl, rfl, rfl⟩⟩

theorem trans (hfirst : Aside c c') (hsecond : Aside c' c'') : Aside c c'' := by
  obtain ⟨ho, hk, hc, hr, hl, hs, hq⟩ := hfirst
  obtain ⟨ho', hk', hc', hr', hl', hs', hq'⟩ := hsecond
  refine ⟨ho'.trans ho, hk'.trans hk, hc'.trans hc, hr'.trans hr, hl'.trans hl, hs'.trans hs, ?_⟩
  rcases hq with ⟨hw, ht, hf, hp⟩ | ⟨hw, ht, hf, hp⟩
  · rw [hw, ht, hf, hp] at hq'
    exact hq'
  · right
    rcases hq' with ⟨hw', ht', hf', hp'⟩ | ⟨hw', ht', hf', hp'⟩
    · exact ⟨hw'.trans hw, ht'.trans ht, hf'.trans hf, hp'.trans hp⟩
    · rw [hw] at hw'
      rw [ht] at ht'
      exact ⟨hw', ht', hf', hp'⟩

theorem expiry (c : Cache V) (expiry : Expiry) : Aside c { c with expiry } :=
  ⟨rfl, rfl, rfl, rfl, rfl, rfl, Or.inl ⟨rfl, rfl, rfl, rfl⟩⟩

theorem accounts (c : Cache V) (expiry : Expiry) (counters : Counters) :
    Aside c { c with expiry, counters } :=
  ⟨rfl, rfl, rfl, rfl, rfl, rfl, Or.inl ⟨rfl, rfl, rfl, rfl⟩⟩

theorem record (c : Cache V) (e : Event V) : Aside c (c.record e) :=
  ⟨rfl, rfl, rfl, rfl, rfl, rfl, Or.inl ⟨rfl, rfl, rfl, rfl⟩⟩

theorem halt (c : Cache V) : Aside c c.halt :=
  ⟨rfl, rfl, rfl, rfl, rfl, rfl, Or.inr ⟨rfl, rfl, rfl, rfl⟩⟩

/-- A worker that goes on has lost nothing of what is queued. -/
theorem queues_of_alive (h : Aside c c') (halive : c'.isClosed = false) :
    c'.writes = c.writes ∧ c'.reads = c.reads ∧ c'.fired = c.fired ∧ c'.paused = c.paused := by
  rcases h.queues with hsame | ⟨hw, _⟩
  · exact hsame
  · unfold isClosed at halive
    rw [hw] at halive
    cases halive

theorem writes_subset (h : Aside c c') : c'.writes.items ⊆ c.writes.items := by
  rcases h.queues with ⟨hw, _⟩ | ⟨hw, _⟩
  · rw [hw]
    exact List.Subset.refl _
  · rw [hw]
    exact List.nil_subset _

end Aside

theorem announce_aside (c : Cache V) (hook : Option Hook) (reason : Departure) (s : Serial) :
    Aside c (c.announce hook reason s) := by
  unfold announce
  split
  · dsimp only
    split
    · exact (Aside.record c _).trans (Aside.halt _)
    · exact Aside.record c _
  · exact .refl c

theorem schedule_aside (c : Cache V) (s : Serial) : Aside c (c.schedule s) := by
  unfold schedule
  split
  · exact .refl c
  · split
    · exact Aside.expiry c _
    · split
      · exact Aside.halt c
      · exact Aside.expiry c _

theorem retire_aside (c : Cache V) (s : Serial) : Aside c (c.retire s) := by
  unfold retire
  split
  · exact .refl c
  · refine Aside.trans ?_ (announce_aside _ _ _ s)
    exact Aside.accounts c _ _

/-- The state in which an entry has been added to the list and nothing else was done. -/
def added (c : Cache V) (s : Serial) : Cache V :=
  { c with recency := (c.recency.add c.contents s).2.1
           contents := (c.recency.add c.contents s).2.2 }

/-- The state in which an entry was removed from the list and nothing else was done. -/
def removed (c : Cache V) (s : Serial) : Cache V :=
  { c with recency := (c.recency.remove c.contents s).2.1
           contents := (c.recency.remove c.contents s).2.2 }

/-- The state in which, besides, the timer of the entry was renewed. -/
def timed (c : Cache V) (s : Serial) : Cache V :=
  if (c.added s).contents.occupies s && ((c.added s).contents.handle? s).isSome then
    (c.added s).schedule s
  else c.added s

theorem timed_aside (c : Cache V) (s : Serial) : Aside (c.added s) (c.timed s) := by
  unfold timed
  split
  · exact schedule_aside _ s
  · exact .refl _

theorem upsert_eq (c : Cache V) (s : Serial) :
    c.upsert s = match (c.recency.add c.contents s).1 with
      | some victim => if (c.timed s).isClosed then c.timed s else (c.timed s).retire victim
      | none => c.timed s := rfl

theorem bury_eq (c : Cache V) (s : Serial) :
    c.bury s = match (c.removed s).contents.entry? s with
      | none => c.removed s
      | some e => ({ c.removed s with
          expiry := ((c.removed s).expiry.removeOwned e.key s).2 } : Cache V).announce
            c.options.onDelete .deleted s := rfl

theorem upsert_aside (c : Cache V) (s : Serial) : Aside (c.added s) (c.upsert s) := by
  rw [upsert_eq]
  split
  · split
    · exact timed_aside c s
    · exact (timed_aside c s).trans (retire_aside _ _)
  · exact timed_aside c s

theorem bury_aside (c : Cache V) (s : Serial) : Aside (c.removed s) (c.bury s) := by
  rw [bury_eq]
  split
  · exact .refl _
  · exact (Aside.expiry _ _).trans (announce_aside _ _ _ s)

/-- The entry that a fired timer removes: the one the timer was set for, if the timer is still on
record, the entry still holds the slot and its end has come. -/
def fallen? (c : Cache V) (id : TimerId) (key : String) : Option Serial :=
  (c.expiry.acknowledge key id).1.filter fun s =>
    decide (c.contents.occupant? key = some s) &&
      ((c.contents.entry? s).bind (·.evictAt c.options.expireDelay)).any
        fun moment => decide (moment ≤ c.clock.timestamp)

/-- A fired timer removes its entry, or changes nothing in contents and list. -/
theorem expire_aside (c : Cache V) (id : TimerId) (key : String) :
    Aside (match c.fallen? id key with
      | some s => c.removed s
      | none => c) (c.expire id key) := by
  unfold expire fallen?
  generalize c.expiry.acknowledge key id = result
  obtain ⟨_ | s, expiry⟩ := result
  · exact Aside.expiry c expiry
  · dsimp only [Option.filter]
    by_cases hs : c.contents.occupant? key = some s
    · simp only [hs, if_true, decide_true, Bool.true_and]
      cases (c.contents.entry? s).bind (·.evictAt c.options.expireDelay) with
      | none => exact Aside.expiry c expiry
      | some moment =>
        by_cases hmoment : moment ≤ c.clock.timestamp
        · simp only [hmoment, if_true, Option.any_some, decide_true]
          have hremoved : c.removed s = { c with
              recency := (c.recency.remove c.contents s).2.1
              contents := (c.recency.remove c.contents s).2.2 } := rfl
          generalize c.recency.remove c.contents s = outcome at hremoved ⊢
          obtain ⟨_ | t, recency, contents⟩ := outcome
          · rw [hremoved]
            exact Aside.expiry _ expiry
          · rw [hremoved]
            refine Aside.trans ?_ (announce_aside _ _ _ s)
            exact Aside.accounts _ expiry _
        · simp only [hmoment, if_false, Option.any_some, decide_false]
          exact (Aside.expiry c expiry).trans (schedule_aside _ s)
    · simp only [hs, if_false, decide_false, Bool.false_and]
      exact Aside.expiry c expiry

/-! ## A worker that goes on -/

end Cache

/-- No callback fails. -/
def Options.Tame {V : Type} (o : Options V) : Prop :=
  ∀ hook, o.onDelete = some hook ∨ o.onExpire = some hook → ∀ key, hook.fails key = false

namespace Cache

variable {V : Type}

theorem isClosed_announce (c : Cache V) {hook : Option Hook} (reason : Departure) (s : Serial)
    (h : ∀ callback, hook = some callback → ∀ key, callback.fails key = false) :
    (c.announce hook reason s).isClosed = c.isClosed := by
  unfold announce
  split
  · rename_i callback e _
    have hfine := h callback rfl e.key
    rw [hfine]
    rfl
  · rfl

theorem isClosed_schedule (c : Cache V) (s : Serial) (h : c.expiry.atLastTick = false) :
    (c.schedule s).isClosed = c.isClosed := by
  unfold schedule
  rw [h]
  split
  · rfl
  · split <;> rfl

theorem isClosed_retire (c : Cache V) (s : Serial) (h : c.options.Tame) :
    (c.retire s).isClosed = c.isClosed := by
  unfold retire
  split
  · rfl
  · exact isClosed_announce _ _ _ fun hook heq => h hook (Or.inl heq)

theorem isClosed_upsert (c : Cache V) (s : Serial) (h : c.options.Tame)
    (htick : c.expiry.atLastTick = false) : (c.upsert s).isClosed = c.isClosed := by
  have htimed : (c.timed s).isClosed = c.isClosed := by
    unfold timed
    split
    · exact isClosed_schedule (c.added s) s htick
    · rfl
  have hoptions : (c.timed s).options = c.options := (c.timed_aside s).options
  rw [upsert_eq]
  split
  · split
    · exact htimed
    · rw [isClosed_retire _ _ (hoptions ▸ h)]
      exact htimed
  · exact htimed

/-- No operation stops the worker while no callback fails and time has not run out. -/
theorem isClosed_apply (c : Cache V) (op : WriteOp) (h : c.options.Tame)
    (htick : c.expiry.atLastTick = false) : (c.apply op).isClosed = c.isClosed := by
  cases op with
  | set s => exact c.isClosed_upsert s h htick
  | update s => exact c.isClosed_upsert s h htick
  | delete s =>
    change (c.bury s).isClosed = _
    rw [bury_eq]
    split
    · rfl
    · exact isClosed_announce _ _ _ fun hook heq => h hook (Or.inl heq)
  | clear => rfl
  | flush => rfl

end Cache

end TimedCache
