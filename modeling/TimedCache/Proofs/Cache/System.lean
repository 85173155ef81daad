import TimedCache.Cache.Together
import TimedCache.Proofs.Cache.Worker

/-!
A cache among callers. Whatever its callers, its worker, the clocks and the timers do is a run of
moves: a caller's part of a call, up to where it waits for the worker, is one move, and so is a
single step of the worker at any of its three queues. The worker steps whenever it likes, and the
timers wake whenever they like after the clocks have moved, so the runs of a resting, lagging or busy
worker are all among them. Each call as a whole is such a run. A call that fails since its caller
cannot fix a deadline is a move of its own, which leaves behind what the caller had done by then.

A move is taken to happen at once. The locks of a real cache are finer: a caller who overwrites an
entry may have to start over as the entry gives way meanwhile, and the worker looks at the slot of an
entry whose timer has fired some time before it empties it.
-/

namespace TimedCache

namespace Cache

variable {V : Type}

/-! ## New caches -/

theorem create_eq_ok {options : Options V} {clock : Clock} {c : Cache V}
    (h : create options clock = .ok c) :
    ∃ contents, Contents.withShards options.shards = .ok contents ∧
      c = { options, clock, contents
            reads := .create 1 options.readBatch readQueueCapacity
            recency := .withCapacity options.capacity
            expiry := .start options.tick options.slots } := by
  unfold create at h
  generalize Contents.withShards options.shards = made at h ⊢
  cases made with
  | error cause => cases h
  | ok contents => exact ⟨contents, rfl, (Except.ok.inj h).symm⟩

theorem exists_create {options : Options V} (h : options.shards ≤ Store.maxShards)
    (clock : Clock) : ∃ c, create options clock = .ok c := by
  unfold create Contents.withShards Store.withShards
  rw [if_pos h]
  exact ⟨_, rfl⟩

theorem options_create {options : Options V} {clock : Clock} {c : Cache V}
    (h : create options clock = .ok c) : c.options = options := by
  obtain ⟨contents, _, rfl⟩ := create_eq_ok h
  rfl

theorem alarms_create {options : Options V} {clock : Clock} {c : Cache V}
    (h : create options clock = .ok c) (key : String) : c.expiry.alarms[key]? = none := by
  obtain ⟨contents, _, rfl⟩ := create_eq_ok h
  exact Std.HashMap.getElem?_empty

/-! ## Steps of the worker -/

/-- The worker takes a write operation, if there is one. -/
def workWrite (c : Cache V) : Cache V :=
  match c.writes.receive? with
  | some (op, writes) => ({ c with writes } : Cache V).apply op
  | none => c

/-- The worker takes a batch of read notes, if there is one. -/
def workRead (c : Cache V) : Cache V :=
  match c.reads.receive? with
  | some (batch, reads) => { c with reads, recency := c.recency.hitAll batch }
  | none => c

/-- The worker takes a fired timer, if there is one. -/
def workFired (c : Cache V) : Cache V :=
  match c.fired with
  | (id, key) :: fired => ({ c with fired } : Cache V).expire id key
  | [] => c

theorem work_eq_workWrite {c : Cache V} (h : c.writes.items ≠ []) : c.work = c.workWrite := by
  unfold work workWrite Queue.receive?
  cases hitems : c.writes.items with
  | nil => exact absurd hitems h
  | cons op rest => rfl

theorem work_eq_workRead {c : Cache V} (hwrites : c.writes.items = [])
    (hreads : c.reads.sink.items ≠ []) : c.work = c.workRead := by
  unfold work workRead ReadTracker.receive? Queue.receive?
  rw [hwrites]
  cases hitems : c.reads.sink.items with
  | nil => exact absurd hitems hreads
  | cons batch rest => rfl

theorem work_eq_workFired {c : Cache V} (hwrites : c.writes.items = [])
    (hreads : c.reads.sink.items = []) : c.work = c.workFired := by
  unfold work workFired ReadTracker.receive? Queue.receive?
  rw [hwrites, hreads]
  rfl

end Cache

/-- A cache, and the entries taken from their slots of which the worker has not been told yet. -/
structure System (V : Type) where
  cache : Cache V
  detached : List Serial := []

inductive Move (V : Type) where
  /-- A caller looks up a key. -/
  | look (key : String)
  /-- A caller stores a value. -/
  | store (key : String) (value : V) (ttl : Span) (wait : Bool)
  /-- A caller stores a value, and fails as there is no deadline for the wait. -/
  | strandSet (key : String) (value : V) (ttl : Span)
  /-- A caller deletes a key, and has yet to tell the worker. -/
  | detach (key : String)
  /-- A caller deletes a key, and fails as there is no deadline for the wait. -/
  | strandDelete (key : String)
  /-- The worker is told of a deletion by a caller that waits for room. -/
  | sendDelete (s : Serial)
  /-- The worker is told of a deletion if there is room. -/
  | offerDelete (s : Serial)
  | clear
  | flush
  /-- The loads in progress change. -/
  | board (loads : SingleFlight V)
  | askLoader (key : String)
  | askBatchLoader (keys : List String)
  /-- Time passes on the clocks, and the timers do not wake. -/
  | lapse (ms steady : Nat)
  | wake
  /-- From now on the worker gets through that much while a caller waits. -/
  | pace (stint : Option Nat)
  | pause
  | unpause
  | halt
  | workWrite
  | workRead
  | workFired

namespace System

variable {V : Type}

def step (s : System V) : Move V → System V
  | .look key => { s with cache := (s.cache.getWithStatus key).2 }
  | .store key value ttl wait => { s with cache := (s.cache.lodge key value ttl wait).2 }
  | .strandSet key value ttl => { s with cache := s.cache.strandSet key value ttl }
  | .strandDelete key => { s with cache := s.cache.strandDelete key }
  | .detach key =>
    { cache := (s.cache.detach key).2, detached := (s.cache.detach key).1.toList ++ s.detached }
  | .sendDelete t =>
    if t ∈ s.detached then
      { cache := (s.cache.sendDelete t).2, detached := s.detached.erase t }
    else s
  | .offerDelete t =>
    if t ∈ s.detached then
      { cache := (s.cache.offer (.delete t)).2, detached := s.detached.erase t }
    else s
  | .clear => { s with cache := (s.cache.send .clear).2 }
  | .flush => { s with cache := (s.cache.send .flush).2 }
  | .board loads => { s with cache := { s.cache with loads } }
  | .askLoader key => { s with cache := s.cache.record (.loading key) }
  | .askBatchLoader keys => { s with cache := s.cache.record (.loadingAll keys) }
  | .lapse ms steady => { s with cache := s.cache.lapse ms steady }
  | .wake => { s with cache := s.cache.wake }
  | .pace stint => { s with cache := { s.cache with stint } }
  | .pause => { s with cache := s.cache.pause }
  | .unpause => { s with cache := { s.cache with paused := false } }
  | .halt => { s with cache := s.cache.halt }
  | .workWrite => { s with cache := s.cache.workWrite }
  | .workRead => { s with cache := s.cache.workRead }
  | .workFired => { s with cache := s.cache.workFired }

def run (s : System V) (moves : List (Move V)) : System V := moves.foldl step s

theorem run_cons (s : System V) (move : Move V) (moves : List (Move V)) :
    s.run (move :: moves) = (s.step move).run moves := rfl

theorem run_append (s : System V) (moves more : List (Move V)) :
    s.run (moves ++ more) = (s.run moves).run more := List.foldl_append

/-- What every move preserves, every run does. -/
theorem run_preserves {P : System V → Prop} (hstep : ∀ s move, P s → P (s.step move))
    {s : System V} (h : P s) (moves : List (Move V)) : P (s.run moves) := by
  induction moves generalizing s with
  | nil => exact h
  | cons move rest ih => exact ih (hstep s move h)

/-! ## What a run yields -/

/-- What the moves of a run yield, in order. -/
def along {α : Type} (yield : System V → Move V → Option α) (s : System V) : List (Move V) → List α
  | [] => []
  | move :: rest => (yield s move).toList ++ (s.step move).along yield rest

theorem along_cons {α : Type} (yield : System V → Move V → Option α) (s : System V) (move : Move V)
    (moves : List (Move V)) :
    s.along yield (move :: moves) =
      (yield s move).toList ++ (s.step move).along yield moves := rfl

theorem along_append {α : Type} (yield : System V → Move V → Option α) (s : System V)
    (moves more : List (Move V)) :
    s.along yield (moves ++ more) = s.along yield moves ++ (s.run moves).along yield more := by
  induction moves generalizing s with
  | nil => rfl
  | cons move rest ih =>
    rw [List.cons_append, along_cons, along_cons, ih, List.append_assoc]
    rfl

/-- What a run yields is yielded by one of its moves. -/
theorem mem_along {α : Type} {yield : System V → Move V → Option α} {s : System V}
    {moves : List (Move V)} {a : α} (ha : a ∈ s.along yield moves) :
    ∃ before move after, moves = before ++ move :: after ∧ yield (s.run before) move = some a := by
  induction moves generalizing s with
  | nil => cases ha
  | cons move rest ih =>
    rcases List.mem_append.mp ha with hnow | hlater
    · exact ⟨[], move, rest, rfl, Option.mem_toList.mp hnow⟩
    · obtain ⟨before, next, after, rfl, hyield⟩ := ih hlater
      exact ⟨move :: before, next, after, rfl, hyield⟩

/-- What every move preserves, given what it yields, every run does. -/
theorem run_preserves_along {α : Type} {yield : System V → Move V → Option α}
    {P : List α → System V → Prop}
    (hstep : ∀ seen s move, P seen s → P (seen ++ (yield s move).toList) (s.step move))
    {seen : List α} {s : System V} (h : P seen s) (moves : List (Move V)) :
    P (seen ++ s.along yield moves) (s.run moves) := by
  induction moves generalizing seen s with
  | nil =>
    unfold along
    rw [List.append_nil]
    exact h
  | cons move rest ih =>
    rw [along_cons, ← List.append_assoc]
    exact ih (hstep seen s move h)

/-! ## Calls as runs -/

/-- Some run of admitted moves leads from one state to the other. -/
def Leads (admitted : Move V → Prop) (s s' : System V) : Prop :=
  ∃ moves, (∀ move ∈ moves, admitted move) ∧ s.run moves = s'

variable {admitted : Move V → Prop}

namespace Leads

theorem refl (s : System V) : Leads admitted s s := ⟨[], by simp, rfl⟩

theorem trans {s s' s'' : System V} (hfirst : Leads admitted s s')
    (hsecond : Leads admitted s' s'') : Leads admitted s s'' := by
  obtain ⟨moves, hmoves, rfl⟩ := hfirst
  obtain ⟨more, hmore, rfl⟩ := hsecond
  refine ⟨moves ++ more, ?_, run_append s moves more⟩
  intro move hmem
  rcases List.mem_append.mp hmem with hin | hin
  · exact hmoves move hin
  · exact hmore move hin

theorem single (s : System V) {move : Move V} (h : admitted move) :
    Leads admitted s (s.step move) :=
  ⟨[move], by simpa using h, rfl⟩

end Leads

end System

/-- Whether a move is a step of the worker. -/
def Move.ofWorker {V : Type} : Move V → Bool
  | .workWrite | .workRead | .workFired => true
  | _ => false

/-- Whether a move is a call that fails as there is no deadline for it. -/
def Move.strands {V : Type} : Move V → Bool
  | .strandSet .. | .strandDelete _ => true
  | _ => false

/-- Whether the clocks go together as far as a move moves them. -/
def Move.inStep {V : Type} : Move V → Bool
  | .lapse ms steady => decide (ms = steady)
  | _ => true

/-- The key that a move stores a value under. -/
def Move.storedKey? {V : Type} : Move V → Option String
  | .store key _ _ _ | .strandSet key _ _ => some key
  | _ => none

namespace System

section

variable {V : Type} {admitted : Move V → Prop}
variable (hworker : ∀ move : Move V, move.ofWorker = true → admitted move)

include hworker

theorem leads_work (c : Cache V) (detached : List Serial) :
    Leads admitted { cache := c, detached } { cache := c.work, detached } := by
  by_cases hwrites : c.writes.items = []
  · by_cases hreads : c.reads.sink.items = []
    · rw [Cache.work_eq_workFired hwrites hreads]
      exact Leads.single _ (hworker .workFired rfl)
    · rw [Cache.work_eq_workRead hwrites hreads]
      exact Leads.single _ (hworker .workRead rfl)
  · rw [Cache.work_eq_workWrite hwrites]
    exact Leads.single _ (hworker .workWrite rfl)

theorem leads_workSteps (n : Nat) (c : Cache V) (detached : List Serial) :
    Leads admitted { cache := c, detached } { cache := c.workSteps n, detached } := by
  induction n generalizing c with
  | zero => exact Leads.refl _
  | succ n ih => exact (leads_work hworker c detached).trans (ih c.work)

theorem leads_applyWrites (c : Cache V) (detached : List Serial) :
    Leads admitted { cache := c, detached } { cache := c.applyWrites, detached } :=
  leads_workSteps hworker _ c detached

theorem leads_catchUp (c : Cache V) (detached : List Serial) :
    Leads admitted { cache := c, detached } { cache := c.catchUp, detached } :=
  leads_workSteps hworker _ c detached

theorem leads_settle (c : Cache V) (detached : List Serial) :
    Leads admitted { cache := c, detached } { cache := c.settle, detached } := by
  unfold Cache.settle
  split
  · exact Leads.refl _
  · exact leads_catchUp hworker c detached

end

end System

namespace Cache

variable {V : Type}

theorem store_eq (c : Cache V) (key : String) (value : V) (ttl : Span) (wait : Bool) :
    c.store key value ttl wait =
      ((((c.lodge key value ttl wait).2.attend wait).submission (c.lodge key value ttl wait).1
        wait).accepted, (c.lodge key value ttl wait).2.attend wait) := rfl

theorem attend_of_not_waits {c : Cache V} {wait : Bool} (h : c.waits wait = false) :
    c.attend wait = c := by
  unfold attend
  dsimp only
  rw [h, if_neg Bool.false_ne_true]

end Cache

namespace System

section

variable {V : Type} {admitted : Move V → Prop}
variable (hworker : ∀ move : Move V, move.ofWorker = true → admitted move)

include hworker

theorem leads_attend (c : Cache V) (detached : List Serial) (wait : Bool) :
    Leads admitted { cache := c, detached } { cache := c.attend wait, detached } := by
  unfold Cache.attend
  dsimp only
  split
  · exact leads_workSteps hworker _ c detached
  · exact Leads.refl _

theorem leads_store (c : Cache V) (detached : List Serial) {key : String} {value : V} {ttl : Span}
    {wait : Bool} (h : admitted (.store key value ttl wait)) :
    Leads admitted { cache := c, detached }
      { cache := (c.store key value ttl wait).2, detached } := by
  have hlodge := Leads.single { cache := c, detached } h
  exact hlodge.trans (leads_attend hworker (c.lodge key value ttl wait).2 detached wait)

/-- What a caller does who has taken an entry from its slot. -/
theorem leads_tell (c : Cache V) (detached : List Serial) (t : Serial)
    (hsend : admitted (.sendDelete t)) (hoffer : admitted (.offerDelete t)) :
    Leads admitted { cache := c, detached := t :: detached }
      { cache := if c.options.syncDelete then (c.handIn (.delete t) true).2.attend true
          else (c.sendDelete t).2
        detached } := by
  have hmem : t ∈ t :: detached := List.mem_cons_self
  have herase : (t :: detached).erase t = detached := List.erase_cons_head _ _
  have hsent := Leads.single { cache := c, detached := t :: detached } hsend
  have hoffered := Leads.single { cache := c, detached := t :: detached } hoffer
  unfold step at hsent hoffered
  dsimp only at hsent hoffered
  rw [if_pos hmem, herase] at hsent hoffered
  split
  · refine Leads.trans ?_ (leads_attend hworker _ detached true)
    unfold Cache.handIn
    split
    · exact hsent
    · exact hoffered
  · exact hsent

theorem leads_await (c : Cache V) (detached : List Serial) (op : WriteOp)
    (h : Leads admitted { cache := c, detached } { cache := (c.send op).2, detached }) :
    Leads admitted { cache := c, detached } { cache := c.await op, detached } := by
  unfold Cache.await
  dsimp only
  split
  · exact h
  · exact h.trans (leads_applyWrites hworker _ detached)

theorem leads_resume (c : Cache V) (detached : List Serial) (h : admitted .unpause) :
    Leads admitted { cache := c, detached } { cache := c.resume, detached } :=
  (Leads.single { cache := c, detached } h).trans (leads_catchUp hworker _ detached)

theorem leads_close (c : Cache V) (detached : List Serial) (hunpause : admitted .unpause)
    (hhalt : admitted .halt) :
    Leads admitted { cache := c, detached } { cache := c.close, detached } := by
  unfold Cache.close
  split
  · exact (leads_resume hworker c detached hunpause).trans (Leads.single _ hhalt)
  · exact (leads_applyWrites hworker c detached).trans (Leads.single _ hhalt)

end

/-- A look-up of a key, the emptying of its slot by a caller, or a value that is put there by one who
fails for want of a deadline. -/
inductive Touch where
  | look (key : String)
  | take (key : String)
  | strand (key : String)

/-- The key whose slot is emptied by a caller. -/
def Touch.taken? : Touch → Option String
  | .look _ | .strand _ => none
  | .take key => some key

def touch? {V : Type} : Move V → Option Touch
  | .look key => some (.look key)
  | .detach key | .strandDelete key => some (.take key)
  | .strandSet key _ _ => some (.strand key)
  | _ => none

section

variable {V : Type}

/-- Some run leads from one state to the other, and these are the keys that it touches. -/
def Touches (touches : List Touch) (s s' : System V) : Prop :=
  ∃ moves, s.run moves = s' ∧ moves.filterMap touch? = touches

namespace Touches

variable {s s' s'' : System V} {touches more : List Touch}

theorem refl (s : System V) : Touches [] s s := ⟨[], rfl, rfl⟩

theorem trans (hfirst : Touches touches s s') (hsecond : Touches more s' s'') :
    Touches (touches ++ more) s s'' := by
  obtain ⟨moves, rfl, rfl⟩ := hfirst
  obtain ⟨later, rfl, rfl⟩ := hsecond
  exact ⟨moves ++ later, run_append s moves later, List.filterMap_append⟩

theorem of_leads (h : Leads (touch? · = none) s s') : Touches [] s s' := by
  obtain ⟨moves, hmoves, rfl⟩ := h
  exact ⟨moves, rfl, List.filterMap_eq_nil_iff.mpr hmoves⟩

theorem single (s : System V) (move : Move V) : Touches (touch? move).toList s (s.step move) := by
  refine ⟨[move], rfl, ?_⟩
  cases move <;> rfl

/-- No key is touched later. -/
theorem then_silent (hfirst : Touches touches s s') (hsecond : Touches [] s' s'') :
    Touches touches s s'' :=
  List.append_nil touches ▸ hfirst.trans hsecond

end Touches

theorem touch?_of_worker (move : Move V) (h : move.ofWorker = true) : touch? move = none := by
  cases move <;> first | rfl | cases h

end

section

variable {V : Type} (c : Cache V) (detached : List Serial)

theorem touches_store (key : String) (value : V) (ttl : Span) (wait : Bool) :
    Touches [] { cache := c, detached } { cache := (c.store key value ttl wait).2, detached } :=
  .of_leads (leads_store touch?_of_worker c detached rfl)

theorem touches_delete (key : String) :
    Touches [.take key] { cache := c, detached } { cache := c.delete key, detached } := by
  have htake : Touches [.take key] { cache := c, detached }
      { cache := (c.detach key).2, detached := (c.detach key).1.toList ++ detached } :=
    Touches.single { cache := c, detached } (.detach key)
  unfold Cache.delete
  generalize c.detach key = result at htake ⊢
  obtain ⟨_ | t, c'⟩ := result
  · exact htake
  · exact htake.then_silent (.of_leads (leads_tell touch?_of_worker c' detached t rfl rfl))

theorem touches_clear : Touches [] { cache := c, detached } { cache := c.clear, detached } := by
  have hsend : Leads (touch? · = none) { cache := c, detached }
      (step { cache := c, detached } .clear) := Leads.single _ rfl
  exact .of_leads (leads_await touch?_of_worker c detached .clear hsend)

theorem touches_flush : Touches [] { cache := c, detached } { cache := c.flush, detached } := by
  have hsend : Leads (touch? · = none) { cache := c, detached }
      (step { cache := c, detached } .flush) := Leads.single _ rfl
  exact .of_leads (leads_await touch?_of_worker c detached .flush hsend)

theorem touches_advance (ms : Nat) :
    Touches [] { cache := c, detached } { cache := c.advance ms, detached } :=
  (Touches.single { cache := c, detached } (.lapse ms ms)).trans
    (.single { cache := c.lapse ms ms, detached } .wake)

theorem touches_resume : Touches [] { cache := c, detached } { cache := c.resume, detached } :=
  .of_leads (leads_resume touch?_of_worker c detached rfl)

theorem touches_close : Touches [] { cache := c, detached } { cache := c.close, detached } :=
  .of_leads (leads_close touch?_of_worker c detached rfl rfl)

theorem touches_getWithStatus (key : String) :
    Touches [.look key] { cache := c, detached }
      { cache := (c.getWithStatus key).2, detached } :=
  .single { cache := c, detached } (.look key)

theorem get_snd (key : String) : (c.get key).2 = (c.getWithStatus key).2 := by
  unfold Cache.get
  split <;> simp_all

theorem touches_get (key : String) :
    Touches [.look key] { cache := c, detached } { cache := (c.get key).2, detached } := by
  rw [get_snd]
  exact touches_getWithStatus c detached key

theorem touches_getMany (keys : List String) :
    Touches (keys.map .look) { cache := c, detached }
      { cache := (c.getMany keys).2, detached } := by
  induction keys generalizing c with
  | nil => exact Touches.refl _
  | cons key rest ih =>
    have hrest := ih (c.get key).2
    change Touches ([.look key] ++ rest.map .look) _ _
    refine (touches_get c detached key).trans ?_
    unfold Cache.getMany
    dsimp only
    split <;> exact hrest

theorem touches_storeAll (ttl : Span) (pairs : List (String × V)) :
    Touches [] { cache := c, detached } { cache := c.storeAll ttl pairs, detached } := by
  induction pairs generalizing c with
  | nil => exact Touches.refl _
  | cons pair rest ih =>
    exact (touches_store c detached pair.1 pair.2 ttl false).trans (ih _)

/-- A caller of a load looks its key up once, though its leader looks again without counting. -/
theorem touches_beginLoad (key : String) :
    Touches [.look key] { cache := c, detached } { cache := (c.beginLoad key).2, detached } := by
  have hlook := touches_getWithStatus c detached key
  have hboard (c' : Cache V) (loads : SingleFlight V) :
      Touches [] { cache := c', detached } { cache := { c' with loads }, detached } :=
    .single { cache := c', detached } (.board loads)
  unfold Cache.beginLoad
  split
  · rename_i heq
    rw [heq] at hlook
    exact hlook
  · rename_i c' _ heq
    rw [heq] at hlook
    dsimp only
    split
    · exact hlook.then_silent (hboard c' _)
    · split
      · exact (hlook.then_silent (hboard c' _)).then_silent (hboard _ _)
      · exact (hlook.then_silent (hboard c' _)).then_silent (.single _ (.askLoader key))

theorem touches_finishLoad (call : LoadCall V) (answer : Except LoaderFault V) (ttl : Span) :
    Touches [] { cache := c, detached }
      { cache := (c.finishLoad call answer ttl).2, detached } := by
  unfold Cache.finishLoad
  split
  · exact Touches.refl _
  · split
    · exact (touches_store c detached _ _ ttl false).trans (.single _ (.board _))
    · exact .single _ (.board _)

theorem touches_cancelLoad (call : LoadCall V) :
    Touches [] { cache := c, detached } { cache := c.cancelLoad call, detached } := by
  unfold Cache.cancelLoad
  split
  · exact .single _ (.board _)
  · exact Touches.refl _

theorem touches_getOrLoadWith (key : String) (loader : Loader V) (ttl : Span) :
    Touches [.look key] { cache := c, detached }
      { cache := (c.getOrLoadWith key loader ttl).2, detached } := by
  have hbegin := touches_beginLoad c detached key
  unfold Cache.getOrLoadWith
  split
  · rename_i heq
    rw [heq] at hbegin
    exact hbegin
  · rename_i heq
    rw [heq] at hbegin
    exact hbegin.then_silent (touches_finishLoad _ detached _ _ ttl)

theorem touches_getManyOrLoadWith (keys : List String) (loader : BatchLoader V) (ttl : Span) :
    Touches (keys.map .look) { cache := c, detached }
      { cache := (c.getManyOrLoadWith keys loader ttl).2, detached } := by
  have hmany := touches_getMany c detached keys
  unfold Cache.getManyOrLoadWith
  generalize c.getMany keys = result at hmany ⊢
  obtain ⟨⟨found, missing⟩, c'⟩ := result
  dsimp only at hmany ⊢
  split
  · exact hmany
  · have hasked := hmany.then_silent (.single { cache := c', detached } (.askBatchLoader missing))
    split
    · exact hasked
    · exact hasked.then_silent (touches_storeAll _ detached ttl _)

end

end System

end TimedCache
