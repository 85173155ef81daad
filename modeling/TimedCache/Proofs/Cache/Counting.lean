import TimedCache.Proofs.Cache.Charges

/-!
What is counted. A lookup counts as a hit or a miss, an entry that is evicted or expires counts once,
and a write that is refused to its caller counts as rejected. Nothing else moves the counters.
-/

namespace TimedCache

namespace Cache

variable {V : Type}

theorem counters_getWithStatus (c : Cache V) (key : String) :
    (c.getWithStatus key).2.counters =
      if (c.getWithStatus key).1.2 = .exist then c.counters.hit else c.counters.miss := by
  have hnote (c' : Cache V) (e : Entry V) : (c'.noteRead e).counters = c'.counters := by
    unfold noteRead
    split <;> rfl
  unfold getWithStatus
  split
  · rfl
  · rename_i e _
    obtain ⟨status, hstatus⟩ : ∃ status, e.statusAt c.clock.timestamp c.options.expireDelay = status :=
      ⟨_, rfl⟩
    cases status <;> simp [hstatus, hnote]

end Cache

namespace System

variable {V : Type}

/-- The status with which a lookup is answered. -/
def answered? (s : System V) : Move V → Option Status
  | .look key => some (s.cache.getWithStatus key).1.2
  | _ => none

/-- Whether a write is refused to its caller, who does not wait for the worker. -/
def rejects (s : System V) : Move V → Bool
  | .store _ _ _ wait => !s.cache.accepts wait
  | .offerDelete t => decide (t ∈ s.detached) && (s.cache.isClosed || s.cache.writes.isFull)
  | _ => false

/-- What a move leaves of the counters. -/
def charged (s : System V) (move : Move V) : Counters where
  hits := s.cache.counters.hits + (s.answered? move).toList.count .exist
  misses := s.cache.counters.misses + (s.answered? move).toList.countP (· ≠ .exist)
  evictions := s.cache.counters.evictions + (s.departed? move .evicted).toList.length
  expirations := s.cache.counters.expirations + (s.departed? move .expired).toList.length
  rejectedWrites := s.cache.counters.rejectedWrites + (s.rejects move).toNat

theorem counters_of_worker (s : System V) {move : Move V} (hworker : move.ofWorker = true) :
    (s.step move).cache.counters = s.charged move := by
  have hcounters := (s.worker_charges hworker).counters
  have hanswered : s.answered? move = none := by cases move <;> first | rfl | cases hworker
  have hrejects : s.rejects move = false := by cases move <;> first | rfl | cases hworker
  unfold charged departed?
  rw [hcounters, hanswered, hrejects]
  cases s.departing? move with
  | none => rfl
  | some d =>
    obtain ⟨reason, t⟩ := d
    cases reason <;> rfl

/-- Each move charges the counters with what it does, and with nothing else. -/
theorem counters_step (s : System V) (move : Move V) :
    (s.step move).cache.counters = s.charged move := by
  cases move with
  | look key =>
    have hanswered : s.answered? (.look key) = some (s.cache.getWithStatus key).1.2 := rfl
    refine (s.cache.counters_getWithStatus key).trans ?_
    unfold charged
    rw [hanswered]
    cases (s.cache.getWithStatus key).1.2 <;> rfl
  | store key value ttl wait =>
    change (s.cache.lodge key value ttl wait).2.counters =
      { s.cache.counters with rejectedWrites :=
          s.cache.counters.rejectedWrites + (!s.cache.accepts wait).toNat }
    cases hs : s.cache.contents.occupant? key with
    | some t =>
      rw [Cache.lodge_of_occupant hs]
      cases s.cache.accepts wait <;> rfl
    | none =>
      rw [Cache.lodge_of_vacant hs]
      cases s.cache.accepts wait <;> rfl
  | strandSet key value ttl =>
    rw [step_strandSet]
    rfl
  | strandDelete key =>
    rw [step_strandDelete]
    rfl
  | detach key =>
    rw [step_detach]
    rfl
  | sendDelete t =>
    rw [step_sendDelete]
    cases s.cache.isClosed <;> split <;> rfl
  | offerDelete t =>
    unfold charged rejects
    rw [step_offerDelete]
    by_cases ht : t ∈ s.detached
    · simp only [ht, if_true, decide_true, Bool.true_and]
      cases s.cache.isClosed || s.cache.writes.isFull <;> rfl
    · simp only [ht, if_false, decide_false, Bool.false_and]
      rfl
  | clear =>
    rw [step_clear]
    cases s.cache.isClosed <;> rfl
  | flush =>
    rw [step_flush]
    cases s.cache.isClosed <;> rfl
  | board | askLoader | askBatchLoader | lapse | wake | pace | pause | unpause | halt => rfl
  | workWrite => exact s.counters_of_worker rfl
  | workRead => exact s.counters_of_worker rfl
  | workFired => exact s.counters_of_worker rfl

end System

end TimedCache
