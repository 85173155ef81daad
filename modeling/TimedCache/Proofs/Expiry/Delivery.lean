import TimedCache.Proofs.Expiry.Requests

/-!
Which timers fire over a run of requests, and when. At every moment the record of a key is the timer
that was set last, unless it was removed or acknowledged since, and its task waits until the first
wake-up that comes to its tick. So each timer fires once, when it is due, or never.
-/

namespace TimedCache

namespace Expiry

variable {new : Expiry} {requests : List Request} {key other : String} {owner : Serial}
  {id : TimerId} {deadline : Nat}

/-- A request in a run that sets a key's timer, with what goes before it and what comes after. -/
structure Setting (requests : List Request) (key : String) where
  earlier : List Request
  clock : Clock
  owner : Serial
  fireAt : Nat
  later : List Request
  split : requests = earlier ++ .set clock key owner fireAt :: later

namespace Setting

/-- The number that the timer gets. -/
def number (s : Setting requests key) (new : Expiry) : TimerId :=
  (new.after s.earlier).timer.wheel.nextId

/-- The tick at which the timer is due. -/
def dueTick (s : Setting requests key) (new : Expiry) : Nat :=
  (new.after s.earlier).dueAt s.clock s.fireAt

/-- No later request replaces, removes or acknowledges the timer. -/
def Stands (s : Setting requests key) (new : Expiry) : Prop :=
  ∀ r ∈ s.later, r.voids key s.owner (s.number new) = false

/-- The timer stands, and no wake-up since has come to its tick. -/
def Waits (s : Setting requests key) (new : Expiry) : Prop :=
  s.Stands new ∧ ∀ r ∈ s.later, r.reaches new.timer.tick.millis (s.dueTick new) = false

def last (requests : List Request) (clock : Clock) (key : String) (owner : Serial) (fireAt : Nat) :
    Setting (requests ++ [.set clock key owner fireAt]) key :=
  ⟨requests, clock, owner, fireAt, [], rfl⟩

/-- The same request in a run that goes on. -/
def snoc (s : Setting requests key) (r : Request) : Setting (requests ++ [r]) key where
  earlier := s.earlier
  clock := s.clock
  owner := s.owner
  fireAt := s.fireAt
  later := s.later ++ [r]
  split := (congrArg (· ++ [r]) s.split).trans (List.append_assoc ..)

theorem last_or_snoc {r : Request} (s : Setting (requests ++ [r]) key) :
    (s.earlier = requests ∧ r = .set s.clock key s.owner s.fireAt ∧ s.later = []) ∨
      ∃ t : Setting requests key, s = t.snoc r := by
  obtain ⟨earlier, clock, owner, fireAt, later, hsplit⟩ := s
  rcases List.eq_nil_or_concat later with rfl | ⟨between, newest, rfl⟩
  · obtain ⟨rfl, heq⟩ := List.append_inj' hsplit rfl
    exact Or.inl ⟨rfl, List.singleton_inj.mp heq, rfl⟩
  · have hparts : requests = earlier ++ .set clock key owner fireAt :: between ∧ [r] = [newest] := by
      refine List.append_inj' (hsplit.trans ?_) rfl
      rw [List.concat_eq_append, List.append_assoc, List.cons_append]
    obtain ⟨rfl, heq⟩ := hparts
    cases heq
    exact Or.inr ⟨⟨earlier, clock, owner, fireAt, between, rfl⟩, by simp [snoc]⟩

theorem stands_snoc (s : Setting requests key) (r : Request) :
    (s.snoc r).Stands new ↔ s.Stands new ∧ r.voids key s.owner (s.number new) = false := by
  change (∀ r' ∈ s.later ++ [r], _) ↔ _
  rw [List.forall_mem_append, List.forall_mem_singleton]
  rfl

theorem waits_snoc (s : Setting requests key) (r : Request) :
    (s.snoc r).Waits new ↔ s.Waits new ∧ r.voids key s.owner (s.number new) = false ∧
      r.reaches new.timer.tick.millis (s.dueTick new) = false := by
  have hreaches : (∀ r' ∈ s.later ++ [r], r'.reaches new.timer.tick.millis (s.dueTick new) = false) ↔
      (∀ r' ∈ s.later, r'.reaches new.timer.tick.millis (s.dueTick new) = false) ∧
        r.reaches new.timer.tick.millis (s.dueTick new) = false := by
    rw [List.forall_mem_append, List.forall_mem_singleton]
  exact ((and_congr (s.stands_snoc r) hreaches).trans and_and_and_comm)

theorem eq_of_earlier {s t : Setting requests key} (h : s.earlier = t.earlier) : s = t := by
  obtain ⟨earlier, clock, owner, fireAt, later, hs⟩ := s
  obtain ⟨earlier', clock', owner', fireAt', later', ht⟩ := t
  cases h
  cases List.append_cancel_left (hs.symm.trans ht)
  rfl

end Setting

/-! ## A run -/

/-- Timers of a queue on which nothing was asked yet. -/
structure Fresh (new : Expiry) : Prop where
  kept : new.Kept new []
  vacant : new.alarms = ∅

theorem fresh_start (tick : Span) (slots : Nat) : (start tick slots).Fresh :=
  ⟨kept_start tick slots, rfl⟩

/-- The timer on record for a key is the one that was set last, if it still stands. -/
theorem Fresh.alarms_after (hnew : new.Fresh) (h : new.Proper requests) :
    (new.after requests).alarms[key]? = some { id, owner } ↔
      ∃ s : Setting requests key, s.owner = owner ∧ s.number new = id ∧ s.Stands new := by
  induction requests using List.reverseRecOn with
  | nil =>
    change new.alarms[key]? = _ ↔ _
    rw [hnew.vacant]
    simp only [Std.HashMap.getElem?_empty, reduceCtorEq, false_iff]
    rintro ⟨s, -⟩
    simpa using congrArg List.length s.split
  | append_singleton requests r ih =>
    have hinit := h.mono (List.prefix_append ..)
    rw [after_concat, (hnew.kept.after hinit).alarms_answer, ih hinit]
    constructor
    · rintro (⟨clock, fireAt, rfl, rfl⟩ | ⟨⟨s, rfl, rfl, hstands⟩, hvoids⟩)
      · exact ⟨.last requests clock key owner fireAt, rfl, rfl, nofun⟩
      · exact ⟨s.snoc r, rfl, rfl, (s.stands_snoc r).mpr ⟨hstands, hvoids⟩⟩
    · rintro ⟨s, rfl, rfl, hstands⟩
      rcases s.last_or_snoc with ⟨hearlier, hr, -⟩ | ⟨t, rfl⟩
      · exact Or.inl ⟨s.clock, s.fireAt, hr, by rw [Setting.number, hearlier]⟩
      · obtain ⟨hstood, hvoids⟩ := (t.stands_snoc r).mp hstands
        exact Or.inr ⟨⟨t, rfl, rfl, hstood⟩, hvoids⟩

/-- The pending timer of a key is the one that was set last, if it still waits. -/
theorem Fresh.pending_after (hnew : new.Fresh) (h : new.Proper requests) :
    (new.after requests).Pending key owner id deadline ↔
      ∃ s : Setting requests key, s.owner = owner ∧ s.number new = id ∧ s.dueTick new = deadline ∧
        s.Waits new := by
  induction requests using List.reverseRecOn with
  | nil =>
    constructor
    · rintro ⟨halarm, -⟩
      change new.alarms[key]? = _ at halarm
      rw [hnew.vacant] at halarm
      cases Std.HashMap.getElem?_empty.symm.trans halarm
    · rintro ⟨s, -⟩
      simpa using congrArg List.length s.split
  | append_singleton requests r ih =>
    have hinit := h.mono (List.prefix_append ..)
    have hkept := hnew.kept.after hinit
    obtain ⟨hrange, -⟩ := h requests r (List.prefix_refl _)
    rw [after_concat, hkept.pending_answer hrange, ih hinit, hkept.tick]
    constructor
    · rintro (⟨clock, fireAt, rfl, rfl, rfl⟩ | ⟨⟨s, rfl, rfl, rfl, hwaits⟩, hvoids, hreaches⟩)
      · exact ⟨.last requests clock key owner fireAt, rfl, rfl, rfl, nofun, nofun⟩
      · exact ⟨s.snoc r, rfl, rfl, rfl, (s.waits_snoc r).mpr ⟨hwaits, hvoids, hreaches⟩⟩
    · rintro ⟨s, rfl, rfl, rfl, hwaits⟩
      rcases s.last_or_snoc with ⟨hearlier, hr, -⟩ | ⟨t, rfl⟩
      · exact Or.inl ⟨s.clock, s.fireAt, hr, by rw [Setting.number, hearlier],
          by rw [Setting.dueTick, hearlier]⟩
      · obtain ⟨hwaited, hvoids, hreaches⟩ := (t.waits_snoc r).mp hwaits
        exact Or.inr ⟨⟨t, rfl, rfl, rfl, hwaited⟩, hvoids, hreaches⟩

/-! ## Numbers -/

theorem Kept.nextId_answer {q : Expiry} {fired : List (TimerId × String)} (h : new.Kept q fired)
    (r : Request) : q.timer.wheel.nextId ≤ (q.answer r).2.timer.wheel.nextId := by
  cases r with
  | set clock key owner fireAt =>
    rw [h.answer_set]
    exact (q.nextId_lt_renew clock key owner fireAt).le
  | remove key => exact (q.remove_frame key).2.2.2.ge
  | removeOwned key owner => exact (q.nextId_removeOwned key owner).ge
  | clear => exact Nat.le_refl _
  | wake clock => exact (h.tidy.nextId_wake clock).ge
  | acknowledge key id =>
    exact (congrArg (fun t => t.wheel.nextId) (q.acknowledge_frame key id)).ge

/-- Every timer is numbered before the next one. -/
theorem Setting.number_lt (s : Setting requests key) (hnew : new.Fresh) (h : new.Proper requests) :
    s.number new < (new.after requests).timer.wheel.nextId := by
  induction requests using List.reverseRecOn with
  | nil => simpa using congrArg List.length s.split
  | append_singleton requests r ih =>
    have hinit := h.mono (List.prefix_append ..)
    have hkept := hnew.kept.after hinit
    rw [after_concat]
    rcases s.last_or_snoc with ⟨hearlier, hr, -⟩ | ⟨t, rfl⟩
    · rw [number, hearlier, hr, hkept.answer_set]
      exact (new.after requests).nextId_lt_renew s.clock key s.owner s.fireAt
    · exact (ih t hinit).trans_le (hkept.nextId_answer r)

/-- No number is given twice. -/
theorem Setting.number_inj (s : Setting requests key) (t : Setting requests other)
    (hnew : new.Fresh) (h : new.Proper requests) (heq : s.number new = t.number new) :
    s.earlier = t.earlier := by
  induction requests using List.reverseRecOn with
  | nil => simpa using congrArg List.length s.split
  | append_singleton requests r ih =>
    have hinit := h.mono (List.prefix_append ..)
    rcases s.last_or_snoc with ⟨hs, -⟩ | ⟨s, rfl⟩ <;> rcases t.last_or_snoc with ⟨ht, -⟩ | ⟨t, rfl⟩
    · exact hs.trans ht.symm
    · have hlt := t.number_lt hnew hinit
      rw [number, hs] at heq
      exact absurd heq.symm hlt.ne
    · have hlt := s.number_lt hnew hinit
      rw [number, number, ht] at heq
      exact absurd heq hlt.ne
    · exact ih s t hinit heq

/-! ## What fires -/

theorem Tidy.task_iff_pending {q : Expiry} {fired : List (TimerId × String)} (h : q.Tidy fired) :
    q.timer.wheel.tasks[id]? = some { deadline, payload := key } ↔
      ∃ owner, q.Pending key owner id deadline := by
  constructor
  · intro htask
    obtain ⟨owner, howner⟩ := h.owned id _ htask
    exact ⟨owner, howner, htask⟩
  · rintro ⟨owner, -, htask⟩
    exact htask

/-- Whatever fires at a wake-up was set in the run. -/
theorem Fresh.setting_of_wake (hnew : new.Fresh) (h : new.Proper requests) {clock : Clock}
    (hclock : clock.sinceStart < 2 ^ 63) (hin : (id, key) ∈ ((new.after requests).wake clock).1) :
    ∃ s : Setting requests key, s.number new = id := by
  have htidy := (hnew.kept.after h).tidy
  obtain ⟨deadline, htask, -⟩ := ((htidy.mem_wake hclock).2 id key).mp hin
  obtain ⟨owner, hpending⟩ := htidy.task_iff_pending.mp htask
  obtain ⟨s, -, hnumber, -⟩ := (hnew.pending_after h).mp hpending
  exact ⟨s, hnumber⟩

/-- A wake-up fires the timers that wait for a tick to which it comes. -/
theorem Fresh.fires_iff (hnew : new.Fresh) (h : new.Proper requests) {clock : Clock}
    (hclock : clock.sinceStart < 2 ^ 63) (s : Setting requests key) :
    (s.number new, key) ∈ ((new.after requests).wake clock).1 ↔
      s.Waits new ∧ s.dueTick new ≤ clock.sinceStart / new.timer.tick.millis := by
  have hkept := hnew.kept.after h
  rw [(hkept.tidy.mem_wake hclock).2, hkept.tick]
  constructor
  · rintro ⟨deadline, htask, hdue⟩
    obtain ⟨owner, hpending⟩ := hkept.tidy.task_iff_pending.mp htask
    obtain ⟨t, -, hnumber, rfl, hwaits⟩ := (hnew.pending_after h).mp hpending
    cases Setting.eq_of_earlier (t.number_inj s hnew h hnumber)
    exact ⟨hwaits, hdue⟩
  · rintro ⟨hwaits, hdue⟩
    have hpending := (hnew.pending_after h).mpr ⟨s, rfl, rfl, rfl, hwaits⟩
    exact ⟨s.dueTick new, hpending.2, hdue⟩

theorem Fresh.kept_earlier (hnew : new.Fresh) (h : new.Proper requests)
    (s : Setting requests key) :
    new.Kept (new.after s.earlier) (new.firedBy s.earlier) :=
  hnew.kept.after (h.mono ⟨_, s.split.symm⟩)

/-- A timer that is due at a tick is not before its time there. -/
theorem Fresh.passed_of_dueTick (hnew : new.Fresh) (h : new.Proper requests)
    (s : Setting requests key) {elapsed : Nat}
    (hdue : s.dueTick new ≤ elapsed / new.timer.tick.millis) :
    s.clock.sinceStart + (s.fireAt - s.clock.timestamp) ≤ elapsed := by
  have hstep := hnew.kept.tidy.millis_pos
  have hceil : (s.clock.sinceStart + (s.fireAt - s.clock.timestamp)) ⌈/⌉ new.timer.tick.millis ≤
      elapsed / new.timer.tick.millis := by
    rw [Setting.dueTick, dueAt, (hnew.kept_earlier h s).tick] at hdue
    exact (Nat.le_max_left ..).trans hdue
  rw [ceilDiv_le_iff_le_mul hstep] at hceil
  exact hceil.trans (Nat.mul_div_le ..)

/-- The removal of an entry's timer does something just if the timer on record is that entry's. -/
theorem removeOwned_effect (q : Expiry) (key : String) (owner : Serial) :
    ((q.removeOwned key owner).1 = true ↔ ∃ id, q.alarms[key]? = some { id, owner }) ∧
      ((q.removeOwned key owner).2 ≠ q ↔ ∃ id, q.alarms[key]? = some { id, owner }) := by
  have hgone (alarm : Alarm) (halarm : q.alarms[key]? = some alarm) : (q.remove key).2 ≠ q := by
    intro hsame
    have hnone := q.alarms_remove key key
    rw [hsame, if_pos rfl, halarm] at hnone
    cases hnone
  unfold removeOwned
  cases halarm : q.alarms[key]? with
  | none => simp
  | some alarm =>
    have hflag : (q.remove key).1 = true := by
      unfold remove
      rw [halarm]
    obtain ⟨id, holder⟩ := alarm
    by_cases howner : holder = owner
    · simp [howner, hflag, hgone _ halarm]
    · simp [howner]

theorem acknowledge_eq_some_iff (q : Expiry) (key : String) (id : TimerId) (owner : Serial) :
    (q.acknowledge key id).1 = some owner ↔ q.alarms[key]? = some { id, owner } := by
  rw [acknowledge_fst]
  rcases q.alarms[key]? with - | ⟨number, holder⟩
  · simp
  · simp [Option.filter]

/-- On a new queue, whatever was asked of it before: the timer on record for a key is the one that
was set last, if none of the later requests took it off; an acknowledgement names just that one, and
the removal of an owner's timer affects just that owner's. The tasks are the timers on record that
have not fired, one for a key at most. A timer fires at the first wake-up that comes to its tick if
it is still on record then, so never early, and never twice. -/
theorem timers_fire_once_when_due (tick : Span) (slots : Nat) (requests : List Request)
    (h : (start tick slots).Proper requests) :
    let new := start tick slots
    let q := new.after requests
    let step := (max tick (.ofMillis 1)).millis
    (∀ key (s : Setting requests key),
      ((new.after s.earlier).set s.clock key s.owner s.fireAt).map (·.1) = .ok (s.number new) ∧
      s.dueTick new = max ((s.clock.sinceStart + (s.fireAt - s.clock.timestamp)) ⌈/⌉ step)
        ((new.after s.earlier).timer.wheel.current + 1)) ∧
    (∀ key owner id, (q.acknowledge key id).1 = some owner ↔
      ∃ s : Setting requests key, s.owner = owner ∧ s.number new = id ∧ s.Stands new) ∧
    (∀ key owner id, q.alarms[key]? = some { id, owner } ↔
      ∃ s : Setting requests key, s.owner = owner ∧ s.number new = id ∧ s.Stands new) ∧
    (∀ key owner,
      ((q.removeOwned key owner).1 = true ↔ ∃ id, q.alarms[key]? = some { id, owner }) ∧
      ((q.removeOwned key owner).2 ≠ q ↔ ∃ id, q.alarms[key]? = some { id, owner })) ∧
    (∀ key id, (∃ deadline, q.timer.wheel.tasks[id]? = some { deadline, payload := key }) ↔
      (∃ owner, q.alarms[key]? = some { id, owner }) ∧ id ∉ (new.firedBy requests).map (·.1)) ∧
    (∀ (key : String) (id id' : TimerId) (deadline deadline' : Nat),
      q.timer.wheel.tasks[id]? = some { deadline, payload := key } →
      q.timer.wheel.tasks[id']? = some { deadline := deadline', payload := key } → id = id') ∧
    ((new.firedBy requests).map (·.1)).Nodup ∧
    ∀ clock : Clock, clock.sinceStart < 2 ^ 63 →
      (∀ id key, (id, key) ∈ (q.wake clock).1 →
        ∃ s : Setting requests key, s.number new = id ∧
          s.clock.sinceStart + (s.fireAt - s.clock.timestamp) ≤ clock.sinceStart) ∧
      ∀ key (s : Setting requests key), (s.number new, key) ∈ (q.wake clock).1 ↔
        s.Waits new ∧ s.dueTick new ≤ clock.sinceStart / step := by
  intro new q step
  have hnew : new.Fresh := fresh_start tick slots
  have hkept : new.Kept q (new.firedBy requests) := hnew.kept.after h
  have hrecord (key : String) (owner : Serial) (id : TimerId) :
      q.alarms[key]? = some { id, owner } ↔
        ∃ s : Setting requests key, s.owner = owner ∧ s.number new = id ∧ s.Stands new :=
    hnew.alarms_after h
  refine ⟨fun key s => ⟨?_, ?_⟩, fun key owner id => ?_, hrecord, q.removeOwned_effect,
    fun key id => ⟨?_, ?_⟩, ?_, hkept.once, fun clock hclock => ⟨fun id key hin => ?_,
      fun key s => hnew.fires_iff h hclock s⟩⟩
  · rw [(hnew.kept_earlier h s).set_eq]
    rfl
  · rw [Setting.dueTick, dueAt, (hnew.kept_earlier h s).tick]
    rfl
  · rw [← hrecord]
    exact q.acknowledge_eq_some_iff key id owner
  · rintro ⟨deadline, htask⟩
    refine ⟨hkept.tidy.owned id _ htask, fun hin => ?_⟩
    obtain ⟨⟨_, name⟩, hfired, rfl⟩ := List.mem_map.mp hin
    cases (hkept.tidy.fired_old _ name hfired).2.symm.trans htask
  · rintro ⟨⟨owner, halarm⟩, hout⟩
    exact (hkept.tidy.recorded key _ halarm).resolve_left fun hin =>
      hout (List.mem_map_of_mem hin)
  · intro key id id' deadline deadline' htask htask'
    obtain ⟨owner, halarm⟩ := hkept.tidy.owned id _ htask
    obtain ⟨owner', halarm'⟩ := hkept.tidy.owned id' _ htask'
    cases halarm.symm.trans halarm'
    rfl
  · obtain ⟨s, hnumber⟩ := hnew.setting_of_wake h hclock hin
    rw [← hnumber, hnew.fires_iff h hclock] at hin
    exact ⟨s, hnumber, hnew.passed_of_dueTick h s hin.2⟩

/-- Of two timers of a key that are due one tick after the other, the first never fires; the second
fires at its tick and not before. -/
theorem renewed_timer_fires_alone :
    let new := start (.ofMillis 10) 8
    let first : Request := .set ⟨1000, 0⟩ "a" 1 1030
    let second : Request := .set ⟨1010, 10⟩ "a" 2 1040
    let old : Setting [first, second] "a" := ⟨[], ⟨1000, 0⟩, 1, 1030, [second], rfl⟩
    let renewed : Setting [first, second] "a" := ⟨[first], ⟨1010, 10⟩, 2, 1040, [], rfl⟩
    let q := new.after [first, second]
    new.Proper [first, second] ∧ (old.number new, "a") ∉ (q.wake ⟨1040, 40⟩).1 ∧
      (renewed.number new, "a") ∉ (q.wake ⟨1039, 39⟩).1 ∧
      (renewed.number new, "a") ∈ (q.wake ⟨1040, 40⟩).1 := by
  intro new first second old renewed q
  have hproper : new.Proper [first, second] := by
    intro earlier r hprefix
    have hin : r ∈ [first, second] := hprefix.subset (by simp)
    rcases List.mem_pair.mp hin with rfl | rfl <;> exact ⟨⟨by decide, by decide⟩, nofun⟩
  obtain ⟨hset, _, _, _, _, _, _, hwake⟩ :=
    timers_fire_once_when_due (.ofMillis 10) 8 [first, second] hproper
  have hdue : renewed.dueTick new = 4 := by
    have hcurrent : (new.after [first]).timer.wheel.current = 0 := by
      change (new.answer first).2.timer.wheel.current = 0
      rw [(kept_start (.ofMillis 10) 8).answer_set]
      exact (new.replace_frame ⟨1000, 0⟩ "a" 1 1030).2
    rw [(hset "a" renewed).2]
    change max _ ((new.after [first]).timer.wheel.current + 1) = 4
    rw [hcurrent]
    decide
  refine ⟨hproper, fun hin => ?_, fun hin => ?_, ?_⟩
  · have hstands := (((hwake ⟨1040, 40⟩ (by decide)).2 "a" old).mp hin).1.1
    cases hstands second List.mem_cons_self
  · have hlate := (((hwake ⟨1039, 39⟩ (by decide)).2 "a" renewed).mp hin).2
    rw [hdue] at hlate
    exact absurd hlate (by decide)
  · refine ((hwake ⟨1040, 40⟩ (by decide)).2 "a" renewed).mpr ⟨⟨nofun, nofun⟩, ?_⟩
    rw [hdue]
    decide

end Expiry

end TimedCache
