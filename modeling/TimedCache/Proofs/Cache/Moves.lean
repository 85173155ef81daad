import TimedCache.Proofs.Cache.System

/-!
What each move changes of the contents, the list and the write queue. Looking, loading and the
course of time change none of them. A caller who stores or deletes changes contents and queue; a
step of the worker takes one message and does what the message asks for.
-/

namespace TimedCache

namespace Cache

variable {V : Type}

/-! ## Callers -/

theorem getWithStatus_frame (c : Cache V) (key : String) :
    ∃ reads counters, (c.getWithStatus key).2 = { c with reads, counters } := by
  unfold getWithStatus
  split
  · exact ⟨c.reads, _, rfl⟩
  · rename_i e _
    have hnote (c' : Cache V) : ∃ reads, c'.noteRead e = { c' with reads } := by
      unfold noteRead
      split
      · exact ⟨_, rfl⟩
      · exact ⟨c'.reads, rfl⟩
    split
    · exact ⟨c.reads, _, rfl⟩
    · obtain ⟨reads, hreads⟩ := hnote { c with counters := c.counters.hit }
      exact ⟨reads, _, hreads⟩
    · obtain ⟨reads, hreads⟩ := hnote { c with counters := c.counters.miss }
      exact ⟨reads, _, hreads⟩

/-- The state with one more operation in the queue. -/
def queued (c : Cache V) (op : WriteOp) : Cache V :=
  { c with writes := { c.writes with items := c.writes.items ++ [op] } }

/-- Whether an operation that is handed in now is taken. -/
def accepts (c : Cache V) (wait : Bool) : Bool :=
  (c.waits wait && c.findsRoom) || !(c.isClosed || c.writes.isFull)

theorem send_eq (c : Cache V) (op : WriteOp) :
    c.send op = if c.isClosed then (false, c) else (true, c.queued op) := by
  unfold send Queue.send isClosed
  by_cases h : c.writes.closed = true
  · rw [if_pos h, if_pos h]
  · rw [if_neg h, if_neg h]
    rfl

theorem offer_eq (c : Cache V) (op : WriteOp) :
    c.offer op =
      if c.isClosed || c.writes.isFull then
        (false, { c with counters := c.counters.rejectedWrite })
      else (true, c.queued op) := by
  unfold offer Queue.offer isClosed
  by_cases h : (c.writes.closed || c.writes.isFull) = true
  · rw [if_pos h, if_pos h]
  · rw [if_neg h, if_neg h]
    rfl

theorem handIn_of_room {c : Cache V} {wait : Bool} (h : (c.waits wait && c.findsRoom) = true)
    (op : WriteOp) : c.handIn op wait = (true, c.queued op) := by
  have hopen : c.isClosed = false := by
    unfold waits at h
    simpa using (Bool.and_eq_true_iff.mp (Bool.and_eq_true_iff.mp h).1).2
  unfold handIn
  rw [if_pos h, send_eq, if_neg (Bool.eq_false_iff.mp hopen)]

theorem handIn_of_no_room {c : Cache V} {wait : Bool} (h : (c.waits wait && c.findsRoom) = false)
    (op : WriteOp) : c.handIn op wait = c.offer op := by
  unfold handIn
  exact if_neg (Bool.eq_false_iff.mp h)

theorem handIn_eq (c : Cache V) (op : WriteOp) (wait : Bool) :
    c.handIn op wait =
      if c.accepts wait then (true, c.queued op)
      else (false, { c with counters := c.counters.rejectedWrite }) := by
  unfold accepts
  cases hroom : c.waits wait && c.findsRoom with
  | true => exact handIn_of_room hroom op
  | false =>
    rw [handIn_of_no_room hroom, offer_eq]
    cases c.isClosed || c.writes.isFull <;> rfl

/-- The contents with the value of an occupied slot overwritten. -/
def overwritten (c : Cache V) (s : Serial) (value : V) (ttl : Span) : Contents V :=
  c.contents.modify s (·.overwrite value (c.clock.stampAfter ttl))

/-- The contents with a new entry. -/
def created (c : Cache V) (key : String) (value : V) (ttl : Span) : Contents V :=
  (c.contents.create key value (c.clock.stampAfter ttl)).2

/-- The serial of the next entry. -/
def nextSerial (c : Cache V) : Serial := c.contents.entries.size

/-- The contents once a value is under its key, be the slot occupied or not. -/
def written (c : Cache V) (key : String) (value : V) (ttl : Span) : Contents V :=
  match c.contents.occupant? key with
  | some s => c.overwritten s value ttl
  | none => (c.created key value ttl).place c.nextSerial

theorem written_of_occupant {c : Cache V} {key : String} {s : Serial}
    (h : c.contents.occupant? key = some s) (value : V) (ttl : Span) :
    c.written key value ttl = c.overwritten s value ttl := by
  unfold written
  rw [h]

theorem written_of_vacant {c : Cache V} {key : String} (h : c.contents.occupant? key = none)
    (value : V) (ttl : Span) :
    c.written key value ttl = (c.created key value ttl).place c.nextSerial := by
  unfold written
  rw [h]

theorem strandSet_eq (c : Cache V) (key : String) (value : V) (ttl : Span) :
    c.strandSet key value ttl = { c with contents := c.written key value ttl } := by
  unfold strandSet written
  cases c.contents.occupant? key <;> rfl

theorem lodge_of_occupant {c : Cache V} {key : String} {s : Serial}
    (h : c.contents.occupant? key = some s) (value : V) (ttl : Span) (wait : Bool) :
    c.lodge key value ttl wait =
      if c.accepts wait then
        (true, ({ c with contents := c.overwritten s value ttl } : Cache V).queued (.update s))
      else
        (false, { c with contents := c.overwritten s value ttl
                         counters := c.counters.rejectedWrite }) := by
  unfold lodge
  rw [h]
  exact handIn_eq { c with contents := c.overwritten s value ttl } (.update s) wait

theorem lodge_of_vacant {c : Cache V} {key : String} (h : c.contents.occupant? key = none)
    (value : V) (ttl : Span) (wait : Bool) :
    c.lodge key value ttl wait =
      if c.accepts wait then
        (true, ({ c with contents := (c.created key value ttl).place c.nextSerial } :
          Cache V).queued (.set c.nextSerial))
      else
        (false, { c with
          contents := (((c.created key value ttl).place c.nextSerial).vacate c.nextSerial).2
          counters := c.counters.rejectedWrite }) := by
  have hhandIn := handIn_eq
    { c with contents := (c.created key value ttl).place c.nextSerial } (.set c.nextSerial) wait
  have haccepts : ({ c with contents := (c.created key value ttl).place c.nextSerial } :
      Cache V).accepts wait = c.accepts wait := rfl
  rw [haccepts] at hhandIn
  unfold created nextSerial Contents.create at hhandIn ⊢
  unfold lodge Contents.create
  rw [h]
  dsimp only at hhandIn ⊢
  rw [hhandIn]
  cases c.accepts wait <;> rfl

theorem lodge_fst (c : Cache V) (key : String) (value : V) (ttl : Span) (wait : Bool) :
    (c.lodge key value ttl wait).1 = c.accepts wait := by
  cases hs : c.contents.occupant? key with
  | some s =>
    rw [lodge_of_occupant hs]
    cases c.accepts wait <;> rfl
  | none =>
    rw [lodge_of_vacant hs]
    cases c.accepts wait <;> rfl

/-- What a caller lodges is at the end of the queue, if anywhere. -/
theorem lodge_frame (c : Cache V) (key : String) (value : V) (ttl : Span) (wait : Bool) :
    (c.lodge key value ttl wait).2.options = c.options ∧
      (c.lodge key value ttl wait).2.clock = c.clock ∧
      (c.lodge key value ttl wait).2.recency = c.recency ∧
      (c.lodge key value ttl wait).2.writes.closed = c.writes.closed ∧
      ((c.lodge key value ttl wait).2.writes.items = c.writes.items ∨
        ∃ t, (c.lodge key value ttl wait).2.writes.items = c.writes.items ++ [.set t] ∨
          (c.lodge key value ttl wait).2.writes.items = c.writes.items ++ [.update t]) := by
  cases hs : c.contents.occupant? key with
  | some s =>
    rw [lodge_of_occupant hs]
    split
    · exact ⟨rfl, rfl, rfl, rfl, Or.inr ⟨s, Or.inr rfl⟩⟩
    · exact ⟨rfl, rfl, rfl, rfl, Or.inl rfl⟩
  | none =>
    rw [lodge_of_vacant hs]
    split
    · exact ⟨rfl, rfl, rfl, rfl, Or.inr ⟨_, Or.inl rfl⟩⟩
    · exact ⟨rfl, rfl, rfl, rfl, Or.inl rfl⟩

theorem reads_lodge (c : Cache V) (key : String) (value : V) (ttl : Span) (wait : Bool) :
    (c.lodge key value ttl wait).2.reads = c.reads := by
  cases hs : c.contents.occupant? key with
  | some s =>
    rw [lodge_of_occupant hs]
    split <;> rfl
  | none =>
    rw [lodge_of_vacant hs]
    split <;> rfl

theorem detach_eq (c : Cache V) (key : String) :
    c.detach key =
      (c.contents.occupant? key, { c with contents := (c.contents.takeKey key).2 }) := by
  have hfst := c.contents.takeKey_fst key
  unfold detach
  generalize c.contents.takeKey key = result at hfst ⊢
  obtain ⟨taken, contents⟩ := result
  rw [← hfst]

theorem strandDelete_eq (c : Cache V) (key : String) :
    c.strandDelete key = { c with contents := (c.contents.takeKey key).2 } := by
  unfold strandDelete
  rw [detach_eq]

/-! ## The worker -/

/-- What a write operation does to contents and list. -/
def drawn (c : Cache V) : WriteOp → Cache V
  | .set s => c.added s
  | .update s => c.added s
  | .delete s => c.removed s
  | .clear => c.wipe
  | .flush => c

theorem apply_aside (c : Cache V) (op : WriteOp) : Aside (c.drawn op) (c.apply op) := by
  cases op with
  | set s => exact upsert_aside c s
  | update s => exact upsert_aside c s
  | delete s => exact bury_aside c s
  | clear => exact .refl _
  | flush => exact .refl _

/-- The state in which the worker has taken the first of its operations. -/
def received (c : Cache V) (rest : List WriteOp) : Cache V :=
  { c with writes := { c.writes with items := rest } }

theorem workWrite_of_cons {c : Cache V} {op : WriteOp} {rest : List WriteOp}
    (h : c.writes.items = op :: rest) : c.workWrite = (c.received rest).apply op := by
  unfold workWrite Queue.receive?
  rw [h]
  rfl

theorem workWrite_of_nil {c : Cache V} (h : c.writes.items = []) : c.workWrite = c := by
  unfold workWrite Queue.receive?
  rw [h]

theorem workRead_frame (c : Cache V) :
    ∃ reads places, c.workRead = { c with reads, recency := c.recency.hitAll places } := by
  unfold workRead
  split
  · exact ⟨_, _, rfl⟩
  · exact ⟨c.reads, [], rfl⟩

theorem workFired_of_cons {c : Cache V} {id : TimerId} {key : String}
    {rest : List (TimerId × String)} (h : c.fired = (id, key) :: rest) :
    c.workFired = ({ c with fired := rest } : Cache V).expire id key := by
  unfold workFired
  rw [h]

theorem workFired_of_nil {c : Cache V} (h : c.fired = []) : c.workFired = c := by
  unfold workFired
  rw [h]

/-- The state of the contents and the list on which the worker acts when a timer has fired. -/
theorem workFired_aside (c : Cache V) :
    ∃ base : Cache V, Aside base c.workFired ∧ base.writes = c.writes ∧
      base.options = c.options ∧
      ((base.contents = c.contents ∧ base.recency = c.recency) ∨
        ∃ id key rest t, c.fired = (id, key) :: rest ∧ c.fallen? id key = some t ∧
          base.contents = (c.removed t).contents ∧ base.recency = (c.removed t).recency) := by
  unfold workFired
  cases hfired : c.fired with
  | nil => exact ⟨c, .refl c, rfl, rfl, Or.inl ⟨rfl, rfl⟩⟩
  | cons task rest =>
    obtain ⟨id, key⟩ := task
    have hfallen : ({ c with fired := rest } : Cache V).fallen? id key = c.fallen? id key := rfl
    have haside := ({ c with fired := rest } : Cache V).expire_aside id key
    rw [hfallen] at haside
    refine ⟨_, haside, ?_⟩
    cases ht : c.fallen? id key with
    | none => exact ⟨rfl, rfl, Or.inl ⟨rfl, rfl⟩⟩
    | some t => exact ⟨rfl, rfl, Or.inr ⟨id, key, rest, t, rfl, ht, rfl, rfl⟩⟩

theorem workWrite_aside {c : Cache V} {op : WriteOp} {rest : List WriteOp}
    (h : c.writes.items = op :: rest) :
    Aside ((c.received rest).drawn op) c.workWrite ∧
      ((c.received rest).drawn op).writes = { c.writes with items := rest } ∧
      ((c.received rest).drawn op).options = c.options := by
  rw [workWrite_of_cons h]
  refine ⟨(c.received rest).apply_aside op, ?_⟩
  cases op <;> exact ⟨rfl, rfl⟩

/-- A worker that goes on takes the first operation, and leaves all else that waits. -/
theorem workWrite_frame {c : Cache V} (halive : c.workWrite.isClosed = false) :
    c.workWrite.clock = c.clock ∧ c.workWrite.writes.items = c.writes.items.tail ∧
      c.workWrite.reads = c.reads ∧ c.workWrite.fired = c.fired ∧ c.workWrite.paused = c.paused := by
  cases hitems : c.writes.items with
  | nil =>
    rw [workWrite_of_nil hitems]
    exact ⟨rfl, hitems, rfl, rfl, rfl⟩
  | cons op rest =>
    obtain ⟨haside, hwrites, _⟩ := workWrite_aside hitems
    obtain ⟨hqueue, hreads, hfired, hpaused⟩ := haside.queues_of_alive halive
    rw [haside.clock, hqueue, hreads, hfired, hpaused, hwrites]
    cases op <;> exact ⟨rfl, rfl, rfl, rfl, rfl⟩

/-- A worker that goes on takes the first fired timer, and leaves all else that waits. -/
theorem workFired_frame {c : Cache V} (halive : c.workFired.isClosed = false) :
    c.workFired.clock = c.clock ∧ c.workFired.writes = c.writes ∧
      c.workFired.reads = c.reads ∧ c.workFired.fired = c.fired.tail ∧
      c.workFired.paused = c.paused := by
  cases hfired : c.fired with
  | nil =>
    rw [workFired_of_nil hfired]
    exact ⟨rfl, rfl, rfl, hfired, rfl⟩
  | cons task rest =>
    rw [workFired_of_cons hfired] at halive ⊢
    have haside := ({ c with fired := rest } : Cache V).expire_aside task.1 task.2
    obtain ⟨hqueue, hreads, hleft, hpaused⟩ := haside.queues_of_alive halive
    rw [haside.clock, hqueue, hreads, hleft, hpaused]
    split <;> exact ⟨rfl, rfl, rfl, rfl, rfl⟩

end Cache

/-- Whether a move leaves contents, list and write queue alone. -/
def Move.quiet {V : Type} : Move V → Bool
  | .look _ | .board _ | .askLoader _ | .askBatchLoader _ | .lapse _ _ | .wake | .pace _ | .pause
  | .unpause => true
  | _ => false

/-- Whether a move leaves contents and list alone. -/
def Move.distant {V : Type} : Move V → Bool
  | .store .. | .strandSet .. | .detach _ | .strandDelete _ | .workWrite | .workRead | .workFired =>
    false
  | _ => true

namespace System

variable {V : Type}

theorem step_of_quiet (s : System V) {move : Move V} (h : move.quiet = true) :
    (s.step move).cache.contents = s.cache.contents ∧
      (s.step move).cache.recency = s.cache.recency ∧
      (s.step move).cache.writes = s.cache.writes ∧
      (s.step move).detached = s.detached ∧
      (s.step move).cache.options = s.cache.options := by
  cases move with
  | look key =>
    obtain ⟨reads, counters, heq⟩ := s.cache.getWithStatus_frame key
    have hstep : s.step (.look key) = { s with cache := { s.cache with reads, counters } } :=
      congrArg (fun c => ({ s with cache := c } : System V)) heq
    rw [hstep]
    exact ⟨rfl, rfl, rfl, rfl, rfl⟩
  | board | askLoader | askBatchLoader | lapse | wake | pace | pause | unpause =>
    exact ⟨rfl, rfl, rfl, rfl, rfl⟩
  | _ => cases h

theorem step_strandSet (s : System V) (key : String) (value : V) (ttl : Span) :
    s.step (.strandSet key value ttl) =
      { s with cache := { s.cache with contents := s.cache.written key value ttl } } :=
  congrArg (fun c => ({ s with cache := c } : System V)) (s.cache.strandSet_eq key value ttl)

theorem step_strandDelete (s : System V) (key : String) :
    s.step (.strandDelete key) =
      { s with cache := { s.cache with contents := (s.cache.contents.takeKey key).2 } } :=
  congrArg (fun c => ({ s with cache := c } : System V)) (s.cache.strandDelete_eq key)

theorem step_detach (s : System V) (key : String) :
    s.step (.detach key) =
      { cache := { s.cache with contents := (s.cache.contents.takeKey key).2 }
        detached := (s.cache.contents.occupant? key).toList ++ s.detached } := by
  change ({ cache := (s.cache.detach key).2
            detached := (s.cache.detach key).1.toList ++ s.detached } : System V) = _
  rw [Cache.detach_eq]

theorem step_sendDelete (s : System V) (t : Serial) :
    s.step (.sendDelete t) =
      if t ∈ s.detached then
        { cache := if s.cache.isClosed then s.cache else s.cache.queued (.delete t)
          detached := s.detached.erase t }
      else s := by
  change (if t ∈ s.detached then
    { cache := (s.cache.send (.delete t)).2, detached := s.detached.erase t } else s) = _
  rw [Cache.send_eq]
  cases s.cache.isClosed <;> rfl

/-- A caller deletes a key, and tells a worker that lives. -/
theorem run_detach {s : System V} {key : String} {t : Serial}
    (ht : s.cache.contents.occupant? key = some t) (halive : s.cache.isClosed = false) :
    s.run [.detach key, .sendDelete t] =
      { s with cache := ({ s.cache with contents := (s.cache.contents.takeKey key).2 } :
          Cache V).queued (.delete t) } := by
  let told : System V :=
    { cache := { s.cache with contents := (s.cache.contents.takeKey key).2 }
      detached := t :: s.detached }
  have htold : s.step (.detach key) = told := by
    rw [step_detach, ht]
    rfl
  have hin : t ∈ told.detached := List.mem_cons_self
  have halive' : told.cache.isClosed = false := halive
  rw [run_cons, htold, run_cons, step_sendDelete, if_pos hin, halive',
    show told.detached.erase t = s.detached from List.erase_cons_head ..]
  rfl

theorem step_offerDelete (s : System V) (t : Serial) :
    s.step (.offerDelete t) =
      if t ∈ s.detached then
        { cache := if s.cache.isClosed || s.cache.writes.isFull then
            { s.cache with counters := s.cache.counters.rejectedWrite }
            else s.cache.queued (.delete t)
          detached := s.detached.erase t }
      else s := by
  change (if t ∈ s.detached then
    { cache := (s.cache.offer (.delete t)).2, detached := s.detached.erase t } else s) = _
  rw [Cache.offer_eq]
  cases s.cache.isClosed || s.cache.writes.isFull <;> rfl

theorem step_clear (s : System V) :
    s.step .clear =
      { s with cache := if s.cache.isClosed then s.cache else s.cache.queued .clear } := by
  change ({ s with cache := (s.cache.send .clear).2 } : System V) = _
  rw [Cache.send_eq]
  cases s.cache.isClosed <;> rfl

theorem step_flush (s : System V) :
    s.step .flush =
      { s with cache := if s.cache.isClosed then s.cache else s.cache.queued .flush } := by
  change ({ s with cache := (s.cache.send .flush).2 } : System V) = _
  rw [Cache.send_eq]
  cases s.cache.isClosed <;> rfl

theorem step_of_distant (s : System V) {move : Move V} (h : move.distant = true) :
    (s.step move).cache.contents = s.cache.contents ∧
      (s.step move).cache.recency = s.cache.recency := by
  have hquiet (h : move.quiet = true) : (s.step move).cache.contents = s.cache.contents ∧
      (s.step move).cache.recency = s.cache.recency :=
    ⟨(s.step_of_quiet h).1, (s.step_of_quiet h).2.1⟩
  cases move with
  | look | board | askLoader | askBatchLoader | lapse | wake | pace | pause | unpause => exact hquiet rfl
  | sendDelete t =>
    rw [step_sendDelete]
    cases s.cache.isClosed <;> split <;> exact ⟨rfl, rfl⟩
  | offerDelete t =>
    rw [step_offerDelete]
    cases s.cache.isClosed || s.cache.writes.isFull <;> split <;> exact ⟨rfl, rfl⟩
  | clear =>
    rw [step_clear]
    cases s.cache.isClosed <;> exact ⟨rfl, rfl⟩
  | flush =>
    rw [step_flush]
    cases s.cache.isClosed <;> exact ⟨rfl, rfl⟩
  | halt => exact ⟨rfl, rfl⟩
  | _ => cases h

/-- A step of a worker that goes on takes the first operation of the queue, or none. -/
theorem writes_of_worker {s : System V} {move : Move V} (hworker : move.ofWorker = true)
    (halive : (s.step move).cache.isClosed = false) :
    (s.step move).cache.writes.items =
      if move matches .workWrite then s.cache.writes.items.tail else s.cache.writes.items := by
  cases move with
  | workWrite =>
    obtain ⟨_, hitems, _⟩ := Cache.workWrite_frame halive
    exact hitems
  | workRead =>
    obtain ⟨reads, places, heq⟩ := s.cache.workRead_frame
    change s.cache.workRead.writes.items = s.cache.writes.items
    rw [heq]
  | workFired =>
    obtain ⟨_, hwrites, _⟩ := Cache.workFired_frame halive
    exact congrArg (·.items) hwrites
  | _ => cases hworker

/-- What a caller asks for comes last in the queue, and only the end of the worker changes anything
else there. -/
theorem writes_of_caller (s : System V) {move : Move V} (hcaller : move.ofWorker = false)
    (hmove : move ≠ .halt) :
    ∃ more, (s.step move).cache.writes =
      { s.cache.writes with items := s.cache.writes.items ++ more } := by
  have hsame {writes : Queue WriteOp} (h : writes = s.cache.writes) :
      ∃ more, writes = { s.cache.writes with items := s.cache.writes.items ++ more } :=
    ⟨[], by rw [List.append_nil, h]⟩
  cases move with
  | look | board | askLoader | askBatchLoader | lapse | wake | pace | pause | unpause =>
    exact hsame (s.step_of_quiet rfl).2.2.1
  | store key value ttl wait =>
    change ∃ more, (s.cache.lodge key value ttl wait).2.writes = _
    cases ht : s.cache.contents.occupant? key with
    | some t =>
      rw [Cache.lodge_of_occupant ht]
      split
      · exact ⟨[.update t], rfl⟩
      · exact hsame rfl
    | none =>
      rw [Cache.lodge_of_vacant ht]
      split
      · exact ⟨[.set s.cache.nextSerial], rfl⟩
      · exact hsame rfl
  | strandSet key value ttl =>
    rw [step_strandSet]
    exact hsame rfl
  | strandDelete key =>
    rw [step_strandDelete]
    exact hsame rfl
  | detach key =>
    rw [step_detach]
    exact hsame rfl
  | sendDelete u =>
    rw [step_sendDelete]
    cases s.cache.isClosed <;> split <;> first | exact hsame rfl | exact ⟨[.delete u], rfl⟩
  | offerDelete u =>
    rw [step_offerDelete]
    cases s.cache.isClosed || s.cache.writes.isFull <;> split <;>
      first | exact hsame rfl | exact ⟨[.delete u], rfl⟩
  | clear =>
    rw [step_clear]
    cases s.cache.isClosed <;> first | exact hsame rfl | exact ⟨[.clear], rfl⟩
  | flush =>
    rw [step_flush]
    cases s.cache.isClosed <;> first | exact hsame rfl | exact ⟨[.flush], rfl⟩
  | halt => exact absurd rfl hmove
  | _ => cases hcaller

/-- A caller leaves a worker that lives afterwards as it was, and takes nothing from the queue. -/
theorem alive_of_caller {s : System V} {move : Move V} (hcaller : move.ofWorker = false)
    (halive : (s.step move).cache.isClosed = false) :
    s.cache.isClosed = false ∧
      ∃ more, (s.step move).cache.writes.items = s.cache.writes.items ++ more := by
  have hmove : move ≠ .halt := by
    rintro rfl
    cases halive
  obtain ⟨more, hwrites⟩ := s.writes_of_caller hcaller hmove
  unfold Cache.isClosed at halive ⊢
  rw [hwrites] at halive ⊢
  exact ⟨halive, more, rfl⟩

theorem recency_of_caller (s : System V) {move : Move V} (hcaller : move.ofWorker = false) :
    (s.step move).cache.recency = s.cache.recency := by
  cases move with
  | store key value ttl wait => exact (s.cache.lodge_frame key value ttl wait).2.2.1
  | strandSet key value ttl => rw [step_strandSet]
  | strandDelete key => rw [step_strandDelete]
  | detach key => rw [step_detach]
  | workWrite | workRead | workFired => cases hcaller
  | _ => exact (s.step_of_distant rfl).2

theorem step_options (s : System V) (move : Move V) :
    (s.step move).cache.options = s.cache.options := by
  cases move with
  | look | board | askLoader | askBatchLoader | lapse | wake | pace | pause | unpause =>
    exact (s.step_of_quiet rfl).2.2.2.2
  | store key value ttl wait => exact (s.cache.lodge_frame key value ttl wait).1
  | strandSet key value ttl => rw [step_strandSet]
  | strandDelete key => rw [step_strandDelete]
  | detach key => rw [step_detach]
  | sendDelete t =>
    rw [step_sendDelete]
    split
    · dsimp only
      split <;> rfl
    · rfl
  | offerDelete t =>
    rw [step_offerDelete]
    split
    · dsimp only
      split <;> rfl
    · rfl
  | clear =>
    rw [step_clear]
    dsimp only
    split <;> rfl
  | flush =>
    rw [step_flush]
    dsimp only
    split <;> rfl
  | halt => rfl
  | workWrite =>
    change s.cache.workWrite.options = _
    cases hitems : s.cache.writes.items with
    | nil => rw [Cache.workWrite_of_nil hitems]
    | cons op rest =>
      obtain ⟨haside, _, hoptions⟩ := Cache.workWrite_aside hitems
      exact haside.options.trans hoptions
  | workRead =>
    obtain ⟨reads, places, heq⟩ := s.cache.workRead_frame
    change s.cache.workRead.options = _
    rw [heq]
  | workFired =>
    obtain ⟨base, haside, _, hoptions, _⟩ := s.cache.workFired_aside
    exact haside.options.trans hoptions

theorem run_options (s : System V) (moves : List (Move V)) :
    (s.run moves).cache.options = s.cache.options := by
  refine run_preserves (P := fun s' => s'.cache.options = s.cache.options) ?_ rfl moves
  intro s' move h
  exact (step_options s' move).trans h

end System

end TimedCache
