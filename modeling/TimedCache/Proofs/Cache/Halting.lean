import TimedCache.Proofs.Cache.Timers

/-!
The end of the worker. Each step of the worker leaves it going, or is the one that stops it. A worker
that has stopped has nothing left to do, and no move gives it anything: its queues stay empty and its
timers silent.
-/

namespace TimedCache

namespace Cache

variable {V : Type} {c : Cache V}

/-- The second state is as open as the first, or the worker was stopped to come to it. -/
def Halts (c c' : Cache V) : Prop :=
  c'.isClosed = c.isClosed ∨ ∃ last : Cache V, c' = last.halt

theorem Halts.of_closed {c' c'' : Cache V} (h : Halts c' c'') (hsame : c'.isClosed = c.isClosed) :
    Halts c c'' :=
  h.imp_left (·.trans hsame)

theorem Halts.of_halts {c' c'' : Cache V} (hfirst : Halts c c') (halive : c'.isClosed = false)
    (hsecond : Halts c' c'') : Halts c c'' := by
  rcases hfirst with hsame | ⟨last, rfl⟩
  · exact hsecond.of_closed hsame
  · cases halive

theorem announce_halts (c : Cache V) (hook : Option Hook) (reason : Departure) (s : Serial) :
    Halts c (c.announce hook reason s) := by
  unfold announce
  split
  · dsimp only
    split
    · exact Or.inr ⟨_, rfl⟩
    · exact Or.inl rfl
  · exact Or.inl rfl

/-- Setting a timer stops the worker only at the last tick. -/
theorem schedule_halts (c : Cache V) (s : Serial) :
    (c.schedule s).isClosed = c.isClosed ∨ c.schedule s = c.halt ∧ c.expiry.atLastTick = true := by
  unfold schedule
  split
  · exact Or.inl rfl
  · split
    · exact Or.inl rfl
    · split
      · rename_i hlast
        exact Or.inr ⟨rfl, hlast⟩
      · exact Or.inl rfl

theorem timed_halts (c : Cache V) (s : Serial) :
    (c.timed s).isClosed = c.isClosed ∨
      c.timed s = (c.added s).halt ∧ c.expiry.atLastTick = true := by
  unfold timed
  split
  · exact (c.added s).schedule_halts s
  · exact Or.inl rfl

theorem upsert_of_halt {s : Serial} (hhalt : c.timed s = (c.added s).halt) :
    c.upsert s = (c.added s).halt := by
  rw [upsert_eq, hhalt]
  cases (c.recency.add c.contents s).1 <;> rfl

theorem retire_halts (c : Cache V) (s : Serial) : Halts c (c.retire s) := by
  unfold retire
  split
  · exact Or.inl rfl
  · exact (announce_halts _ _ .evicted s).of_closed rfl

theorem upsert_halts (c : Cache V) (s : Serial) : Halts c (c.upsert s) := by
  have htimed : Halts c (c.timed s) :=
    (c.timed_halts s).imp_right fun hlast => ⟨_, hlast.1⟩
  rw [upsert_eq]
  split
  · split
    · exact htimed
    · rename_i halive
      exact htimed.of_halts (Bool.eq_false_iff.mpr halive) (retire_halts _ _)
  · exact htimed

theorem bury_halts (c : Cache V) (s : Serial) : Halts c (c.bury s) := by
  rw [bury_eq]
  split
  · exact Or.inl rfl
  · exact (announce_halts _ _ .deleted s).of_closed rfl

theorem expire_halts (c : Cache V) (id : TimerId) (key : String) : Halts c (c.expire id key) := by
  unfold expire
  generalize c.expiry.acknowledge key id = result
  obtain ⟨_ | t, expiry⟩ := result
  · exact Or.inl rfl
  · dsimp only
    split
    · split
      · exact Or.inl rfl
      · split
        · generalize c.recency.remove c.contents t = outcome
          obtain ⟨_ | u, recency, contents⟩ := outcome
          · exact Or.inl rfl
          · exact (announce_halts _ _ .expired t).of_closed rfl
        · exact ((schedule_halts _ t).imp_right fun hlast => ⟨_, hlast.1⟩)
    · exact Or.inl rfl

theorem apply_halts (c : Cache V) (op : WriteOp) : Halts c (c.apply op) := by
  cases op with
  | set s => exact c.upsert_halts s
  | update s => exact c.upsert_halts s
  | delete s => exact c.bury_halts s
  | clear => exact Or.inl rfl
  | flush => exact Or.inl rfl

theorem workWrite_halts (c : Cache V) : Halts c c.workWrite := by
  cases hitems : c.writes.items with
  | nil =>
    rw [workWrite_of_nil hitems]
    exact Or.inl rfl
  | cons op rest =>
    rw [workWrite_of_cons hitems]
    exact ((c.received rest).apply_halts op).of_closed rfl

theorem workFired_halts (c : Cache V) : Halts c c.workFired := by
  cases hfired : c.fired with
  | nil =>
    rw [workFired_of_nil hfired]
    exact Or.inl rfl
  | cons task rest =>
    rw [workFired_of_cons hfired]
    exact (expire_halts _ _ _).of_closed rfl

/-- The worker has stopped: nothing is left to do, and no timer will fire. -/
structure Ended (c : Cache V) : Prop where
  closed : c.isClosed = true
  writes : c.writes.items = []
  fired : c.fired = []
  undriven : c.expiry.timer.driven = false

theorem ended_halt (c : Cache V) : c.halt.Ended := ⟨rfl, rfl, rfl, rfl⟩

theorem accepts_of_closed (h : c.isClosed = true) (wait : Bool) : c.accepts wait = false := by
  unfold accepts waits
  rw [h]
  simp

theorem lodge_of_closed (h : c.isClosed = true) (key : String) (value : V) (ttl : Span)
    (wait : Bool) : (c.lodge key value ttl wait).2.writes = c.writes := by
  cases hslot : c.contents.occupant? key with
  | some s => rw [lodge_of_occupant hslot, accepts_of_closed h, if_neg Bool.false_ne_true]
  | none => rw [lodge_of_vacant hslot, accepts_of_closed h, if_neg Bool.false_ne_true]

end Cache

namespace Expiry

theorem wake_of_undriven {q : Expiry} (h : q.timer.driven = false) (clock : Clock) :
    q.wake clock = ([], q) := by
  unfold wake Timer.wake
  rw [h]
  rfl

end Expiry

namespace System

variable {V : Type} {s : System V}

/-- Callers have nothing queued once the worker has stopped. -/
theorem writes_of_closed (h : s.cache.isClosed = true) {move : Move V}
    (hcaller : move.ofWorker = false) (hmove : move ≠ .halt) :
    (s.step move).cache.writes = s.cache.writes := by
  cases move with
  | look | board | askLoader | askBatchLoader | lapse | wake | pace | pause | unpause =>
    exact (s.step_of_quiet rfl).2.2.1
  | strandSet key value ttl => rw [step_strandSet]
  | strandDelete key => rw [step_strandDelete]
  | store key value ttl wait => exact Cache.lodge_of_closed h key value ttl wait
  | detach key => rw [step_detach]
  | sendDelete t =>
    rw [step_sendDelete, h]
    split <;> rfl
  | offerDelete t =>
    rw [step_offerDelete, h]
    split <;> rfl
  | clear => rw [step_clear, h, if_pos rfl]
  | flush => rw [step_flush, h, if_pos rfl]
  | halt => exact absurd rfl hmove
  | _ => cases hcaller

/-- No move gives a worker that has stopped anything to do, or moves its wheel. -/
theorem ended_step (h : s.cache.Ended) (move : Move V) :
    (s.step move).cache.Ended ∧
      (s.step move).cache.expiry.atLastTick = s.cache.expiry.atLastTick := by
  have hcallers (hwrites : (s.step move).cache.writes = s.cache.writes)
      (hexpiry : (s.step move).cache.expiry = s.cache.expiry)
      (hfired : (s.step move).cache.fired = s.cache.fired) :
      (s.step move).cache.Ended ∧
        (s.step move).cache.expiry.atLastTick = s.cache.expiry.atLastTick := by
    refine ⟨⟨?_, ?_, hfired.trans h.fired, ?_⟩, by rw [hexpiry]⟩
    · unfold Cache.isClosed
      rw [hwrites]
      exact h.closed
    · rw [hwrites]
      exact h.writes
    · rw [hexpiry]
      exact h.undriven
  have hidle (hmove : move.timed = false) (hwrites : (s.step move).cache.writes = s.cache.writes) :
      (s.step move).cache.Ended ∧
        (s.step move).cache.expiry.atLastTick = s.cache.expiry.atLastTick :=
    hcallers hwrites (s.step_of_not_timed hmove).2.1 (s.step_of_not_timed hmove).2.2
  cases move with
  | lapse ms steady => exact hcallers rfl rfl rfl
  | wake =>
    have hwake := Expiry.wake_of_undriven h.undriven s.cache.clock
    refine hcallers rfl (congrArg (·.2) hwake) ?_
    change s.cache.fired ++ (s.cache.expiry.wake s.cache.clock).1 = s.cache.fired
    rw [hwake, List.append_nil]
  | halt => exact ⟨s.cache.ended_halt, rfl⟩
  | workWrite =>
    have hrest := Cache.workWrite_of_nil h.writes
    exact hcallers (congrArg (·.writes) hrest) (congrArg (·.expiry) hrest) (congrArg (·.fired) hrest)
  | workRead =>
    obtain ⟨reads, places, heq⟩ := s.cache.workRead_frame
    exact hcallers (congrArg (·.writes) heq) (congrArg (·.expiry) heq) (congrArg (·.fired) heq)
  | workFired =>
    have hrest := Cache.workFired_of_nil h.fired
    exact hcallers (congrArg (·.writes) hrest) (congrArg (·.expiry) hrest) (congrArg (·.fired) hrest)
  | look | store | strandSet | detach | strandDelete | sendDelete | offerDelete | clear | flush
  | board | askLoader | askBatchLoader | pace | pause | unpause =>
    exact hidle rfl (writes_of_closed h.closed rfl nofun)

/-- A worker that stops has nothing left to do. -/
theorem ended_of_closed (h : s.cache.isClosed = true → s.cache.Ended) (move : Move V)
    (hclosed : (s.step move).cache.isClosed = true) : (s.step move).cache.Ended := by
  have hhalts (hstep : s.cache.Halts (s.step move).cache) : (s.step move).cache.Ended := by
    rcases hstep with hsame | ⟨last, hlast⟩
    · exact (ended_step (h (hsame.symm.trans hclosed)) move).1
    · rw [hlast]
      exact last.ended_halt
  cases hbefore : s.cache.isClosed with
  | true => exact (ended_step (h hbefore) move).1
  | false =>
    cases move with
    | halt => exact s.cache.ended_halt
    | workWrite => exact hhalts s.cache.workWrite_halts
    | workFired => exact hhalts s.cache.workFired_halts
    | workRead =>
      obtain ⟨reads, places, heq⟩ := s.cache.workRead_frame
      have hopen : s.cache.workRead.isClosed = s.cache.isClosed := by
        rw [heq]
        rfl
      exact hhalts (Or.inl hopen)
    | _ => exact hhalts (Or.inl (s.isClosed_of_caller rfl nofun))

end System

end TimedCache
