import TimedCache.Proofs.Cache.Writers
import TimedCache.Proofs.Sequential.Stranding

/-!
The cache among calls with no worker in sight is the plain machine: each call keeps the two in
equal states and gives equal outcomes, or fails in both, which then go on as the machine does that
has run aground. So does every run of calls.
-/

namespace TimedCache

namespace Cache

variable {V : Type}

/-! ## The arena only grows -/

theorem later_settle (c : Cache V) : Later c c.settle := by
  unfold settle
  split
  · exact .refl c
  · exact c.later_workSteps _

theorem later_attend (c : Cache V) (wait : Bool) : Later c (c.attend wait) := by
  unfold attend
  dsimp only
  split
  · exact c.later_workSteps _
  · exact .refl c

theorem later_store (c : Cache V) (key : String) (value : V) (ttl : Span) (wait : Bool) :
    Later c (c.store key value ttl wait).2 := by
  have hlodge : Later c (c.lodge key value ttl wait).2 := c.act_later (.store key value ttl wait)
  exact hlodge.trans (later_attend _ wait)

theorem later_delete (c : Cache V) (key : String) : Later c (c.delete key) := by
  have hdiscard : Later c (c.discard key).2 := c.act_later (.discard key)
  rcases c.delete_eq_discard key with heq | heq <;> rw [heq]
  · exact hdiscard
  · exact hdiscard.trans (later_attend _ true)

theorem later_await (c : Cache V) (op : WriteOp) : Later c (c.await op) := by
  have hsend : Later c (c.send op).2 := by
    rw [send_eq]
    split
    · exact .refl c
    · exact ⟨.refl _, id, Nat.le_refl _, rfl, id⟩
  unfold await
  dsimp only
  split
  · exact hsend
  · exact hsend.trans (later_workSteps _ _)

theorem grows_respond (c : Cache V) (call : Call V) :
    c.recency.Grows (c.respond call).2.recency := by
  have hset (key : String) (value : V) (ttl : Span) :
      c.recency.Grows (c.respond (.setFor key value ttl)).2.recency := by
    rw [respond_setFor]
    split
    · exact ((c.later_store key value ttl _).trans (later_settle _)).grows
    · rw [strandSet_eq]
      exact (later_settle { c with contents := c.written key value ttl }).grows
  have hread (key : String) : c.recency.Grows (c.getWithStatus key).2.settle.recency := by
    obtain ⟨reads, counters, heq⟩ := c.getWithStatus_frame key
    rw [heq]
    exact (later_settle { c with reads, counters }).grows
  cases call with
  | set key value => exact hset key value c.options.defaultTtl
  | setFor key value ttl => exact hset key value ttl
  | get key =>
    change c.recency.Grows (c.get key).2.settle.recency
    rw [System.get_snd]
    exact hread key
  | status key => exact hread key
  | delete key =>
    rw [respond_delete]
    split
    · exact ((c.later_delete key).trans (later_settle _)).grows
    · unfold strandDelete
      rw [detach_eq]
      exact (later_settle { c with contents := (c.contents.takeKey key).2 }).grows
  | len => exact (later_settle c).grows
  | advance ms => exact (later_settle (c.advance ms)).grows
  | clear => exact ((c.later_await .clear).trans (later_settle _)).grows
  | flush => exact ((c.later_await .flush).trans (later_settle _)).grows

theorem grows_callAll (c : Cache V) (calls : List (Call V)) :
    c.recency.Grows (c.callAll calls).recency := by
  induction calls generalizing c with
  | nil => exact .refl _
  | cons call rest ih =>
    have hcall : c.recency.Grows (c.call call).2.recency :=
      grows_respond { c with log := #[] } call
    exact hcall.trans (ih (c.call call).2)

end Cache

/-! ## One call -/

/-- A reply to a call is the plain machine's, and so is the state in the end. -/
structure Replies {V : Type} (c : Cache V) (made : Nat)
    (reply : Except Overflow (Answer V) × Cache V) (answer : Except Overflow (Answer V))
    (events : List (Event V)) (mirrors : Cache V → Prop) : Prop where
  answer : reply.1 = answer
  turns : c.recency.Turns reply.2.recency made
  log : reply.2.log.toList.Perm (c.log.toList ++ events)
  mirrors : c.recency.Rises reply.2.recency → mirrors reply.2

/-- Whether the caller of a call fixes a deadline, if need be. -/
def Call.waits {V : Type} : Call V → Bool
  | .set .. | .setFor .. | .delete _ => true
  | _ => false

namespace Aground.Mirrors

variable {V : Type} {o : Options V} {c c' : Cache V} {m m' : Aground V}

theorem relogged (h : Mirrors o c m) (log : Array (Event V)) : Mirrors o { c with log } m where
  toMatches := h.toMatches.beside ⟨rfl, rfl, rfl, rfl, rfl, rfl, rfl⟩ h.finds h.lists h.rings rfl rfl
    rfl h.created (.refl _)
  toNoted := h.toNoted

theorem replies (h : Mirrors o c m) {events : List (Event V)} (hgoes : Goes o c c' m m' events)
    (answer : Except Overflow (Answer V)) :
    Replies c m.created (answer, c') answer events (Mirrors o · m') :=
  ⟨rfl, hgoes.turns, hgoes.log, h.of_goes hgoes⟩

theorem reads (h : Mirrors o c m) (key : String) (answer : Option V × Status → Answer V) :
    Replies c m.created (.ok (answer (c.getWithStatus key).1), (c.getWithStatus key).2.settle)
      (.ok (answer (m.status o key).1)) [] (Mirrors o · (m.status o key).2) := by
  obtain ⟨hfst, hmirrors, hfrees, hlog⟩ := h.status key
  refine ⟨by rw [hfst], hfrees.turns _, ?_, fun _ => hmirrors⟩
  dsimp only
  rw [hlog, List.append_nil]

theorem get (h : Mirrors o c m) (key : String) :
    Replies c m.created (c.respond (.get key)) (m.step o (.get key)).1 (m.step o (.get key)).2.1
      (Mirrors o · (m.step o (.get key)).2.2) := by
  have hcache : c.respond (.get key) =
      (.ok (.value (if (c.getWithStatus key).1.2 = .exist then (c.getWithStatus key).1.1 else none)),
        (c.getWithStatus key).2.settle) := by
    change (Except.ok (Answer.value (c.get key).1), (c.get key).2.settle) = _
    unfold Cache.get
    generalize c.getWithStatus key = reply
    obtain ⟨⟨value, status⟩, c'⟩ := reply
    cases status <;> rfl
  have hmachine : m.step o (.get key) =
      (.ok (.value (if (m.status o key).1.2 = .exist then (m.status o key).1.1 else none)), [],
        (m.status o key).2) := by
    unfold Aground.step
    dsimp only
    generalize m.status o key = result
    obtain ⟨⟨value, status⟩, m'⟩ := result
    cases status <;> rfl
  rw [hcache, hmachine]
  exact h.reads key fun shown => .value (if shown.2 = .exist then shown.1 else none)

/-- A call that does not wait gets the machine's answer and leads to its state. -/
theorem respond_of_not_waits (h : Mirrors o c m) (htame : o.Tame) {call : Call V}
    (hcall : call.waits = false) (hearly : c.clock.unix + call.elapsed < 2 ^ 63) :
    Replies c m.created (c.respond call) (m.step o call).1 (m.step o call).2.1
      (Mirrors o · (m.step o call).2.2) := by
  cases call with
  | set | setFor | delete => cases hcall
  | get key => exact h.get key
  | status key => exact h.reads key fun shown => .shown shown.1 shown.2
  | len =>
    have hcount : c.respond .len = (.ok (.count m.stored.length m.stored.isEmpty), c) := by
      change (Except.ok (Answer.count c.contents.size c.contents.slots.isEmpty), c.settle) = _
      rw [h.finds.size, h.finds.isEmpty, h.idle.settle]
    rw [hcount]
    exact h.replies h.toMatches.refl _
  | clear =>
    have hclear : c.respond .clear = (.ok .done, c.apply .clear) :=
      congrArg (Prod.mk _) (h.toServes.settle_await htame .clear)
    rw [hclear]
    exact h.replies h.toMatches.wipe _
  | flush =>
    have hflush : c.respond .flush = (.ok .done, c) :=
      congrArg (Prod.mk _) (h.toServes.settle_await htame .flush)
    rw [hflush]
    exact h.replies h.toMatches.refl _
  | advance ms => exact h.replies (h.toMatches.advance htame ms hearly) (.ok .done)

/-- Once callers cannot fix a deadline, every call gets the answer of the machine aground, or fails
as there, and leads to its state. -/
theorem respond (h : Mirrors o c m) (htame : o.Tame) (hstuck : m.clock.Stuck o) (call : Call V)
    (hearly : c.clock.unix + call.elapsed < 2 ^ 63) :
    Replies c m.created (c.respond call) (m.step o call).1 (m.step o call).2.1
      (Mirrors o · (m.step o call).2.2) := by
  obtain rfl := h.options
  rw [h.toServes.clock] at hstuck
  have hset (key : String) (value : V) (ttl : Span) :
      Replies c m.created (c.respond (.setFor key value ttl)) (.error .deadline) []
        (Mirrors c.options · (m.store key value ttl)) := by
    rw [Cache.respond_setFor, Cache.setDeadlineFits_of_stuck hstuck, if_neg Bool.false_ne_true]
    exact h.replies (h.toMatches.strandSet key value ttl) _
  cases call with
  | set key value => exact hset key value c.options.defaultTtl
  | setFor key value ttl => exact hset key value ttl
  | delete key =>
    unfold Aground.step Aground.delete
    rw [Cache.respond_delete, Cache.deleteDeadlineFits_of_stuck hstuck,
      h.toServes.settle_delete htame]
    dsimp only
    cases hfind : Reference.find? m.stored key with
    | none =>
      rw [h.finds.vacant (Reference.find?_eq_none_iff.mp hfind), Option.isNone_none, Bool.or_true,
        if_pos rfl]
      exact h.replies h.toMatches.refl _
    | some r =>
      obtain ⟨hr, rfl⟩ := (Reference.find?_eq_some_iff h.finds.keyed).mp hfind
      rw [h.finds.occupant hr, Option.isNone_some, Bool.or_false]
      cases c.options.syncDelete with
      | true => exact h.replies (h.toMatches.strandDelete hr) _
      | false => exact h.replies (h.toMatches.remove htame hr) _
  | get | status | len | clear | flush | advance => exact h.respond_of_not_waits htame rfl hearly

end Aground.Mirrors

/-- The machine that has not run aground does the same about a call that does not wait. -/
theorem Reference.step_aground {V : Type} {o : Options V} {m : Reference V} {call : Call V}
    {result : Answer V × List (Event V) × Reference V} (hstep : m.step o call = .ok result)
    (hcall : call.waits = false) (hserials : (m.records.map (·.serial)).Nodup)
    (hstart : (m.clock.advance call.elapsed).sinceStart ≤
      (m.clock.advance call.elapsed).timestamp) :
    ∃ stored, m.aground.step o call = (.ok result.1, result.2.1, { result.2.2.aground with stored }) ∧
      result.2.2.records.Perm stored := by
  cases call with
  | set | setFor | delete => cases hcall
  | get key =>
    have hperm := status_perm (o := o) hserials key
    unfold step at hstep
    unfold Aground.step
    dsimp only at hstep ⊢
    rw [status_aground]
    generalize m.status o key = reply at hperm hstep
    obtain ⟨⟨value, status⟩, m'⟩ := reply
    cases status <;> cases hstep <;> exact ⟨m.records, rfl, hperm⟩
  | status key =>
    cases hstep
    unfold Aground.step
    dsimp only
    rw [status_aground]
    exact ⟨m.records, rfl, status_perm hserials key⟩
  | len | clear | flush =>
    cases hstep
    exact ⟨_, rfl, .refl _⟩
  | advance ms =>
    cases hstep
    have hadvance : m.aground.advance o ms = _ := advance_aground hserials hstart
    unfold Aground.step
    dsimp only
    rw [hadvance]
    exact ⟨_, rfl, .refl _⟩

namespace Mirrors

variable {V : Type} {o : Options V} {c c' : Cache V} {m m' : Reference V}

theorem replies (h : Mirrors o c m) {events : List (Event V)} (hgoes : Goes o c c' m m' events)
    (answer : Except Overflow (Answer V)) :
    Replies c m.created (answer, c') answer events (Mirrors o · m') :=
  ⟨rfl, hgoes.turns, hgoes.log, h.of_goes hgoes⟩

theorem setFor (h : Mirrors o c m) (htame : o.Tame) {key : String} {value : V} {ttl : Span}
    {result : Answer V × List (Event V) × Reference V}
    (hstep : m.setFor o key value ttl = .ok result)
    (hfits : (c.respond (.setFor key value ttl)).2.recency.Fitting) :
    Replies c m.created (c.respond (.setFor key value ttl)) (.ok result.1) result.2.1
      (Mirrors o · result.2.2) := by
  have hsame : c.setDeadlineFits = m.setFits o := by
    unfold Cache.setDeadlineFits Reference.setFits
    cases hwait : o.syncSetTimeout <;> simp only [h.options, h.clock, hwait]
  rw [Cache.respond_setFor, hsame] at hfits ⊢
  unfold Reference.setFor at hstep
  split at hstep
  · rename_i hfixed
    cases hstep
    rw [if_pos hfixed] at hfits ⊢
    obtain ⟨haccepted, hgoes⟩ := h.toMatches.store htame key value ttl _ hfits
    rw [show (c.setFor key value ttl).1 = true from haccepted]
    exact h.replies hgoes _
  · cases hstep

theorem delete (h : Mirrors o c m) (htame : o.Tame) {key : String}
    {result : Answer V × List (Event V) × Reference V}
    (hstep : m.step o (.delete key) = .ok result) :
    Replies c m.created (c.respond (.delete key)) (.ok result.1) result.2.1
      (Mirrors o · result.2.2) := by
  have hfound : (c.contents.occupant? key).isNone = (Reference.find? m.records key).isNone := by
    cases hfind : Reference.find? m.records key with
    | none =>
      rw [h.holds.vacant (Reference.find?_eq_none_iff.mp hfind)]
      rfl
    | some r =>
      obtain ⟨hr, rfl⟩ := (Reference.find?_eq_some_iff h.holds.keyed).mp hfind
      rw [h.holds.occupant hr]
      rfl
  have hsame : c.deleteDeadlineFits key = m.deleteFits o key := by
    unfold Cache.deleteDeadlineFits Reference.deleteFits
    rw [h.options, h.clock, hfound]
  rw [Cache.respond_delete, hsame]
  unfold Reference.step at hstep
  dsimp only at hstep
  split at hstep
  · rename_i hfixed
    cases hstep
    rw [if_pos hfixed]
    exact h.replies (h.toMatches.delete htame key) _
  · cases hstep

/-- Every call that does not fail gets the plain machine's answer and leads to its state. -/
theorem respond (h : Mirrors o c m) (htame : o.Tame) {call : Call V}
    {result : Answer V × List (Event V) × Reference V} (hstep : m.step o call = .ok result)
    (hearly : c.clock.unix + call.elapsed < 2 ^ 63)
    (hfits : (c.respond call).2.recency.Fitting) :
    Replies c m.created (c.respond call) (.ok result.1) result.2.1 (Mirrors o · result.2.2) := by
  have hother (hcall : call.waits = false) :
      Replies c m.created (c.respond call) (.ok result.1) result.2.1 (Mirrors o · result.2.2) := by
    obtain ⟨_, _, hlater⟩ := h.timely.epoch_advance hearly
    have hreplies := h.aground.respond_of_not_waits htame hcall hearly
    obtain ⟨stored, hsame, hperm⟩ :=
      Reference.step_aground hstep hcall h.holds.serials (by rw [h.clock]; omega)
    rw [hsame] at hreplies
    exact ⟨hreplies.answer, hreplies.turns, hreplies.log, fun hrises =>
      .of_aground (hreplies.mirrors hrises) hperm⟩
  cases call with
  | set key value =>
    obtain rfl := h.options
    exact h.setFor htame hstep hfits
  | setFor key value ttl => exact h.setFor htame hstep hfits
  | delete key => exact h.delete htame hstep
  | get | status | len | clear | flush | advance => exact hother rfl

theorem relogged (h : Mirrors o c m) (log : Array (Event V)) : Mirrors o { c with log } m :=
  of_aground (h.aground.relogged log) (.refl _)

end Mirrors

/-! ## Runs -/

/-- The calendar, the places of the arena and their generations last for a run. -/
structure Cache.Lasts {V : Type} (c : Cache V) (calls : List (Call V)) : Prop where
  early : c.clock.unix + (calls.map Call.elapsed).sum < 2 ^ 63
  fits : (c.callAll calls).recency.Fitting
  freed : ∀ i, c.recency.timesFreed i + c.timesFreed i calls < 2 ^ 32

namespace Cache.Lasts

variable {V : Type} {c : Cache V} {call : Call V} {rest : List (Call V)}

theorem early_call (h : c.Lasts (call :: rest)) : c.clock.unix + call.elapsed < 2 ^ 63 := by
  have hearly := h.early
  rw [List.map_cons, List.sum_cons] at hearly
  omega

theorem fits_call (h : c.Lasts (call :: rest)) : (c.call call).2.recency.Fitting :=
  ((c.call call).2.grows_callAll rest).fitting h.fits

theorem rises (h : c.Lasts (call :: rest)) {made : Nat}
    (hturns : c.recency.Turns (c.call call).2.recency made) :
    c.recency.Rises (c.call call).2.recency := by
  refine hturns.rises fun i => ?_
  have hfreed := h.freed i
  unfold Cache.timesFreed at hfreed
  omega

theorem next (h : c.Lasts (call :: rest)) {made : Nat}
    (hturns : c.recency.Turns (c.call call).2.recency made)
    (hclock : (c.call call).2.clock = c.clock.advance call.elapsed) :
    (c.call call).2.Lasts rest where
  early := by
    have hearly := h.early
    have hunix : (c.call call).2.clock.unix = c.clock.unix + call.elapsed := by
      rw [hclock]
      rfl
    rw [List.map_cons, List.sum_cons] at hearly
    omega
  fits := h.fits
  freed i := by
    have hfreed := h.freed i
    unfold Cache.timesFreed at hfreed
    rw [hturns.timesFreed (by omega)]
    omega

end Cache.Lasts

/-- A run of calls after one has failed has the outcomes of the machine aground. -/
theorem Aground.Mirrors.outcomes {V : Type} {o : Options V} {c : Cache V} {m : Aground V}
    (h : Aground.Mirrors o c m) (htame : o.Tame) (hstuck : m.clock.Stuck o) {calls : List (Call V)}
    (hlasts : c.Lasts calls) : List.Forall₂ Outcome.Agrees (c.outcomes calls) (m.outcomes o calls) := by
  induction calls generalizing c m with
  | nil => exact .nil
  | cons call rest ih =>
    have hreplies := (h.relogged #[]).respond htame hstuck call hlasts.early_call
    have hmirrors : Mirrors o (c.call call).2 (m.step o call).2.2 :=
      hreplies.mirrors (hlasts.rises hreplies.turns)
    have hclock := m.step_clock o call
    have hnext := hlasts.next hreplies.turns
      (by rw [← hmirrors.toServes.clock, hclock, h.toServes.clock])
    exact .cons ⟨hreplies.answer, hreplies.log, hmirrors.lists.keys, hmirrors.finds.size⟩
      (ih hmirrors (hclock ▸ hstuck.advance call.elapsed) hnext)

/-- A run of calls has the outcomes of the plain machine, until that runs aground and beyond. -/
theorem Mirrors.outcomes {V : Type} {o : Options V} {c : Cache V} {m : Reference V}
    (h : Mirrors o c m) (htame : o.Tame) {calls : List (Call V)} (hlasts : c.Lasts calls) :
    List.Forall₂ Outcome.Agrees (c.outcomes calls) (m.outcomes o calls) := by
  induction calls generalizing c m with
  | nil => exact .nil
  | cons call rest ih =>
    unfold Reference.outcomes
    cases hstep : m.step o call with
    | error cause =>
      have hstarted := h.timely.started
      have hearly := h.timely.early
      have hstuck := Reference.stuck_of_error (by rw [h.clock]; omega) hstep
      exact h.aground.outcomes htame hstuck hlasts
    | ok result =>
      have hreplies := (h.relogged #[]).respond htame hstep hlasts.early_call hlasts.fits_call
      have hmirrors : Mirrors o (c.call call).2 result.2.2 :=
        hreplies.mirrors (hlasts.rises hreplies.turns)
      have hnext := hlasts.next hreplies.turns
        (by rw [← hmirrors.clock, Reference.step_clock hstep, h.clock])
      exact .cons ⟨hreplies.answer, hreplies.log, hmirrors.holds.lists.keys, hmirrors.holds.size⟩
        (ih hmirrors hnext)

namespace Cache

variable {V : Type}

end Cache

end TimedCache
