import TimedCache.Proofs.Expiry.Punctual

/-!
The timers of keys under requests in any order. Between firing and acknowledgement a timer is on
record without a task, and an acknowledgement may name a timer that was replaced long since. A
request sets one timer, takes timers off the record, or wakes the driver; what it leaves pending
follows from what was pending before.
-/

namespace TimedCache

namespace Timer

variable {α : Type}

/-- Rounding up to a tick, as long as the moment is a word. -/
theorem deadline_eq (t : Timer α) (htick : 0 < t.tick.wholeMillis) {elapsed after : Nat}
    (hword : elapsed + after ≤ maxWord) :
    t.deadline (.ofMillis elapsed) (.ofMillis after) = (elapsed + after) ⌈/⌉ t.tick.millis := by
  have hstep : 0 < t.tick.millis := by
    unfold Span.millis clampWord maxWord
    omega
  refine eq_of_forall_ge_iff fun target => ?_
  rw [t.deadline_le_iff htick hword, ceilDiv_le_iff_le_mul hstep, Nat.mul_comm]

end Timer

namespace Expiry

/-- What is asked of the timers of keys, with the clock of the moment where it matters. The driver
wakes whenever it does, not at each tick. -/
inductive Request where
  | set (clock : Clock) (key : String) (owner : Serial) (fireAt : Nat)
  | remove (key : String)
  | removeOwned (key : String) (owner : Serial)
  | clear
  | wake (clock : Clock)
  | acknowledge (key : String) (id : TimerId)

namespace Request

/-- Times since the start and delays below 2 ^ 63 milliseconds. -/
def InRange : Request → Prop
  | set clock _ _ fireAt => clock.sinceStart < 2 ^ 63 ∧ fireAt - clock.timestamp < 2 ^ 63
  | wake clock => clock.sinceStart < 2 ^ 63
  | _ => True

/-- Whether the request takes an owner's timer with this number off the record of its key. -/
def voids (key : String) (owner : Serial) (id : TimerId) : Request → Bool
  | set _ other _ _ => decide (other = key)
  | remove other => decide (other = key)
  | removeOwned other gone => decide (other = key) && decide (gone = owner)
  | clear => true
  | wake _ => false
  | acknowledge other fired => decide (other = key) && decide (fired = id)

/-- Whether the driver wakes at a tick or after it, with so many milliseconds to a tick. -/
def reaches (step deadline : Nat) : Request → Bool
  | wake clock => decide (deadline ≤ clock.sinceStart / step)
  | _ => false

end Request

variable {q new : Expiry} {fired : List (TimerId × String)} {key : String} {owner : Serial}
  {id : TimerId} {deadline : Nat}

/-- Serves a request; what fires is handed out. -/
def answer (q : Expiry) : Request → List (TimerId × String) × Expiry
  | .set clock key owner fireAt =>
    match q.set clock key owner fireAt with
    | .ok (_, q) => ([], q)
    | .error _ => ([], q)
  | .remove key => ([], (q.remove key).2)
  | .removeOwned key owner => ([], (q.removeOwned key owner).2)
  | .clear => ([], q.clear)
  | .wake clock => q.wake clock
  | .acknowledge key id => ([], (q.acknowledge key id).2)

def after (q : Expiry) (requests : List Request) : Expiry :=
  requests.foldl (fun q r => (q.answer r).2) q

/-- All that fires during a run of requests. -/
def firedBy (q : Expiry) : List Request → List (TimerId × String)
  | [] => []
  | r :: rest => (q.answer r).1 ++ (q.answer r).2.firedBy rest

/-- A run in which times are in range and only timers that have fired are acknowledged. -/
def Proper (new : Expiry) (requests : List Request) : Prop :=
  ∀ earlier r, earlier ++ [r] <+: requests →
    r.InRange ∧ ∀ key id, r = .acknowledge key id → id ∈ (new.firedBy earlier).map (·.1)

theorem after_concat (q : Expiry) (requests : List Request) (r : Request) :
    q.after (requests ++ [r]) = ((q.after requests).answer r).2 := List.foldl_concat ..

theorem firedBy_concat (q : Expiry) (requests : List Request) (r : Request) :
    q.firedBy (requests ++ [r]) = q.firedBy requests ++ ((q.after requests).answer r).1 := by
  induction requests generalizing q with
  | nil => simp [firedBy, after]
  | cons first rest ih =>
    rw [List.cons_append, firedBy, ih, ← List.append_assoc]
    rfl

theorem Proper.mono {earlier requests : List Request} (h : new.Proper requests)
    (hle : earlier <+: requests) : new.Proper earlier :=
  fun first r hfirst => h first r (hfirst.trans hle)

/-! ## Waking -/

/-- The tick at which a timer is due that is set now. -/
def dueAt (q : Expiry) (clock : Clock) (fireAt : Nat) : Nat :=
  max ((clock.sinceStart + (fireAt - clock.timestamp)) ⌈/⌉ q.timer.tick.millis)
    (q.timer.wheel.current + 1)

theorem elapsed_of_inRange {clock : Clock} (h : clock.sinceStart < 2 ^ 63) :
    clock.elapsed.millis = clock.sinceStart :=
  Span.millis_ofMillis (by unfold maxWord; omega)

/-- A wake-up fires just the tasks whose tick it reaches, each once. -/
theorem Tidy.mem_wake (h : q.Tidy fired) {clock : Clock} (hclock : clock.sinceStart < 2 ^ 63) :
    ((q.wake clock).1.map (·.1)).Nodup ∧ ∀ id key, (id, key) ∈ (q.wake clock).1 ↔
      ∃ deadline, q.timer.wheel.tasks[id]? = some ⟨deadline, key⟩ ∧
        deadline ≤ clock.sinceStart / q.timer.tick.millis := by
  rw [wake_eq_of_driven h.driven, elapsed_of_inRange hclock]
  generalize clock.sinceStart / q.timer.tick.millis = target
  split
  · rename_i hlt
    obtain ⟨hhands, _, hcurrent⟩ := h.placed.advanceTo target
    rw [Nat.max_eq_right (Nat.le_of_lt hlt)] at hcurrent
    refine ⟨hhands.nodup, fun id key => ⟨fun hin => ?_, ?_⟩⟩
    · obtain ⟨task, htask, rfl, hdue⟩ := hhands.given id key hin
      exact ⟨task.deadline, htask, hcurrent ▸ hdue⟩
    · rintro ⟨deadline, htask, hdue⟩
      have hleft := hhands.left id
      rw [h.placed.tasks_advanceTo, htask, Option.filter_some] at hleft
      by_cases hout : id ∈ (q.timer.wheel.advanceTo target).1.map (·.1)
      · obtain ⟨⟨_, payload⟩, hin, rfl⟩ := List.mem_map.mp hout
        obtain ⟨task, hgiven, rfl, _⟩ := hhands.given _ payload hin
        cases htask.symm.trans hgiven
        exact hin
      · rw [if_neg hout, if_neg (by simpa using hdue)] at hleft
        cases hleft
  · rename_i hge
    refine ⟨List.nodup_nil, fun id key => ⟨nofun, ?_⟩⟩
    rintro ⟨deadline, htask, hdue⟩
    have hlt : q.timer.wheel.current < deadline := h.placed.lt htask
    omega

/-! ## What is kept -/

/-- What every run keeps: the tasks and the record belong together, time has not run out, and all
that has fired has fired once. -/
structure Kept (new q : Expiry) (fired : List (TimerId × String)) : Prop where
  tidy : q.Tidy fired
  tick : q.timer.tick = new.timer.tick
  current : q.timer.wheel.current < 2 ^ 63
  once : (fired.map (·.1)).Nodup

theorem kept_start (tick : Span) (slots : Nat) :
    (start tick slots).Kept (start tick slots) [] :=
  ⟨tidy_start tick slots, rfl, by change 0 < _; decide, List.nodup_nil⟩

theorem Kept.atLastTick (h : new.Kept q fired) : q.atLastTick = false := by
  have hcurrent := h.current
  unfold Expiry.atLastTick Timer.atLastTick Wheel.atLastTick maxWord
  rw [decide_eq_false_iff_not]
  omega

theorem Kept.set_eq (h : new.Kept q fired) (clock : Clock) (key : String) (owner : Serial)
    (fireAt : Nat) : q.set clock key owner fireAt =
      .ok (q.timer.wheel.nextId, (q.replace clock key owner fireAt).2) := by
  obtain ⟨_, _, _, hnextId⟩ := q.remove_frame key
  unfold Expiry.set
  rw [h.atLastTick, if_neg Bool.false_ne_true]
  exact congrArg (fun id => Except.ok (id, (q.replace clock key owner fireAt).2)) hnextId

theorem Kept.answer_set (h : new.Kept q fired) (clock : Clock) (key : String) (owner : Serial)
    (fireAt : Nat) :
    q.answer (.set clock key owner fireAt) = ([], (q.replace clock key owner fireAt).2) := by
  dsimp only [Expiry.answer]
  rw [h.set_eq]

/-- Acknowledging a timer that has fired takes no task's timer off the record. -/
theorem Tidy.acknowledge_fired (h : q.Tidy fired) (key : String) {id : TimerId}
    (hid : id ∈ fired.map (·.1)) : (q.acknowledge key id).2.Tidy fired := by
  have htimer := q.acknowledge_frame key id
  refine ⟨htimer ▸ h.placed, htimer ▸ h.driven, htimer ▸ h.tick_pos, ?_, ?_, ?_⟩
  · intro other alarm halarm
    rw [alarms_acknowledge] at halarm
    rw [htimer]
    split at halarm
    · cases halarm
    · exact h.recorded other alarm halarm
  · intro other task htask
    rw [htimer] at htask
    obtain ⟨owner, howner⟩ := h.owned other task htask
    refine ⟨owner, ?_⟩
    rw [alarms_acknowledge, if_neg]
    · exact howner
    · rintro ⟨heq, hsome⟩
      rw [← heq, howner, Option.map_some, Option.some.injEq] at hsome
      obtain ⟨⟨_, name⟩, hin, rfl⟩ := List.mem_map.mp hid
      cases hsome
      cases (h.fired_old _ name hin).2.symm.trans htask
  · rw [htimer]
    exact h.fired_old

theorem Kept.answer (h : new.Kept q fired) {r : Request} (hrange : r.InRange)
    (hfired : ∀ key id, r = .acknowledge key id → id ∈ fired.map (·.1)) :
    new.Kept (q.answer r).2 (fired ++ (q.answer r).1) := by
  have hquiet {q' : Expiry} (htidy : q'.Tidy fired) (htick : q'.timer.tick = q.timer.tick)
      (hcurrent : q'.timer.wheel.current = q.timer.wheel.current) :
      new.Kept q' (fired ++ []) := by
    rw [List.append_nil]
    exact ⟨htidy, htick.trans h.tick, hcurrent ▸ h.current, h.once⟩
  cases r with
  | set clock key owner fireAt =>
    obtain ⟨htick, hcurrent⟩ := q.replace_frame clock key owner fireAt
    rw [h.answer_set]
    exact hquiet (h.tidy.replace h.atLastTick clock key owner fireAt) htick hcurrent
  | remove key =>
    obtain ⟨htick, _, hcurrent, _⟩ := q.remove_frame key
    exact hquiet (h.tidy.remove key) htick hcurrent
  | removeOwned key owner =>
    obtain ⟨htick, hcurrent⟩ := q.removeOwned_frame key owner
    exact hquiet (h.tidy.removeOwned key owner) htick hcurrent
  | clear => exact hquiet h.tidy.clear rfl rfl
  | acknowledge key id =>
    have htimer := q.acknowledge_frame key id
    exact hquiet (h.tidy.acknowledge_fired key (hfired key id rfl)) (congrArg Timer.tick htimer)
      (congrArg (fun t => t.wheel.current) htimer)
  | wake clock =>
    obtain ⟨_, htick, hcurrent, _⟩ := h.tidy.wake_frame clock
    obtain ⟨hnodup, hmem⟩ := h.tidy.mem_wake hrange
    refine ⟨h.tidy.wake clock, htick.trans h.tick, ?_, ?_⟩
    · change (q.wake clock).2.timer.wheel.current < 2 ^ 63
      rw [hcurrent]
      unfold Clock.reached
      rw [elapsed_of_inRange hrange]
      exact Nat.max_lt.mpr ⟨h.current, Nat.lt_of_le_of_lt (Nat.div_le_self _ _) hrange⟩
    · change ((fired ++ (q.wake clock).1).map (·.1)).Nodup
      rw [List.map_append]
      refine List.nodup_append.mpr ⟨h.once, hnodup, ?_⟩
      rintro id hin _ hout rfl
      obtain ⟨⟨_, name⟩, hold, rfl⟩ := List.mem_map.mp hin
      obtain ⟨⟨_, other⟩, hnew, heq⟩ := List.mem_map.mp hout
      cases heq
      obtain ⟨deadline, htask, _⟩ := (hmem _ other).mp hnew
      cases (h.tidy.fired_old _ name hold).2.symm.trans htask

theorem Kept.after {requests : List Request} (h : new.Kept new []) (hproper : new.Proper requests) :
    new.Kept (new.after requests) (new.firedBy requests) := by
  induction requests using List.reverseRecOn with
  | nil => exact h
  | append_singleton requests r ih =>
    obtain ⟨hrange, hfired⟩ := hproper requests r (List.prefix_refl _)
    rw [after_concat, firedBy_concat]
    exact (ih (hproper.mono (List.prefix_append ..))).answer hrange hfired

/-! ## What one request does to a timer -/

/-- A timer is on record and its task waits. -/
def Pending (q : Expiry) (key : String) (owner : Serial) (id : TimerId) (deadline : Nat) : Prop :=
  q.alarms[key]? = some { id, owner } ∧ q.timer.wheel.tasks[id]? = some { deadline, payload := key }

theorem Tidy.tasks_replace (h : q.Tidy fired) {clock : Clock} {fireAt : Nat}
    (hrange : (Request.set clock key owner fireAt).InRange) (id : TimerId) :
    (q.replace clock key owner fireAt).2.timer.wheel.tasks[id]? =
      if id = q.timer.wheel.nextId then some { deadline := q.dueAt clock fireAt, payload := key }
      else (q.timer.wheel.tasks[id]?).filter fun task => decide (task.payload ≠ key) := by
  obtain ⟨htick, _, hcurrent, hnextId⟩ := q.remove_frame key
  have hword : clock.sinceStart + (fireAt - clock.timestamp) ≤ maxWord := by
    obtain ⟨hsince, hdelay⟩ := hrange
    unfold maxWord
    omega
  have hdue := (q.remove key).2.timer.deadline_eq (h.remove key).tick_pos hword
  rw [htick] at hdue
  rw [replace_eq]
  change ((q.remove key).2.timer.wheel.add
    ((q.remove key).2.timer.deadline (.ofMillis _) (.ofMillis _)) key).2.tasks[id]? = _
  rw [Wheel.tasks_add, h.tasks_remove, hnextId, hcurrent, hdue]
  rfl

/-- The first timer that is set is the only one. -/
theorem replace_start (tick : Span) (slots : Nat) (clock : Clock) (key : String) (owner : Serial)
    {fireAt : Nat} (hrange : (Request.set clock key owner fireAt).InRange) :
    ((start tick slots).replace clock key owner fireAt).2.alarms[key]? = some { id := 1, owner } ∧
      ∀ id : TimerId, ((start tick slots).replace clock key owner fireAt).2.timer.wheel.tasks[id]? =
        if id = 1 then
          some { deadline := (start tick slots).dueAt clock fireAt, payload := key }
        else none := by
  have hfree : ((start tick slots).remove key).2 = start tick slots :=
    congrArg Prod.snd (remove_of_absent Std.HashMap.getElem?_empty)
  refine ⟨?_, fun id => ?_⟩
  · rw [replace_eq, hfree]
    change ((start tick slots).alarms.insert key { id := 1, owner })[key]? = _
    exact Std.HashMap.getElem?_insert_self
  · have hnone : (start tick slots).timer.wheel.tasks[id]? = none := Std.HashMap.getElem?_empty
    rw [(tidy_start tick slots).tasks_replace hrange, hnone]
    rfl

/-- After a request a timer is on record if the request set it, or if it was before and the request
does not take it off. -/
theorem Kept.alarms_answer (h : new.Kept q fired) (r : Request) :
    (q.answer r).2.alarms[key]? = some { id, owner } ↔
      (∃ clock fireAt, r = .set clock key owner fireAt ∧ id = q.timer.wheel.nextId) ∨
        (q.alarms[key]? = some { id, owner } ∧ r.voids key owner id = false) := by
  cases r with
  | set clock other gone fireAt =>
    rw [h.answer_set]
    by_cases hkey : other = key
    · subst hkey
      have hself := q.alarms_renew_self clock other gone (some fireAt)
      change (q.replace clock other gone fireAt).2.alarms[other]? = _ at hself
      rw [hself]
      simp [Request.voids, and_comm, eq_comm]
    · rw [alarms_replace _ _ _ _ _ _ (Ne.symm hkey)]
      simp [Request.voids, hkey]
  | remove other =>
    change (q.remove other).2.alarms[key]? = _ ↔ _
    rw [alarms_remove]
    simp only [Request.voids]
    by_cases hkey : other = key
    · simp [hkey]
    · simp [hkey, Ne.symm hkey]
  | removeOwned other gone =>
    change (q.removeOwned other gone).2.alarms[key]? = _ ↔ _
    rw [alarms_removeOwned]
    simp only [Request.voids]
    by_cases hkey : other = key
    · subst hkey
      rcases q.alarms[other]? with - | ⟨number, holder⟩
      · simp
      · grind
    · simp [hkey, Ne.symm hkey]
  | clear => simp [Expiry.answer, Expiry.clear, Request.voids]
  | wake clock =>
    change (q.wake clock).2.alarms[key]? = _ ↔ _
    rw [(h.tidy.wake_frame clock).1]
    simp [Request.voids]
  | acknowledge other gone =>
    change (q.acknowledge other gone).2.alarms[key]? = _ ↔ _
    rw [alarms_acknowledge]
    simp only [Request.voids]
    by_cases hkey : other = key
    · subst hkey
      rcases q.alarms[other]? with - | ⟨number, holder⟩
      · simp
      · grind
    · simp [hkey, Ne.symm hkey]

theorem filter_payload {task? : Option (Task String)} {other : String} (hne : other ≠ key) :
    task?.filter (fun task => decide (task.payload ≠ other)) =
        some { deadline, payload := key } ↔
      task? = some { deadline, payload := key } := by
  rw [Option.filter_eq_some_iff]
  exact and_iff_left (decide_eq_true hne.symm)

/-- The removal of an owner's timer leaves the tasks of all other timers. -/
theorem Tidy.tasks_removeOwned (h : q.Tidy fired) {other : String} {gone : Serial}
    (halarm : q.alarms[key]? = some { id, owner }) (hkept : other = key → gone ≠ owner) :
    (q.removeOwned other gone).2.timer.wheel.tasks[id]? = some { deadline, payload := key } ↔
      q.timer.wheel.tasks[id]? = some { deadline, payload := key } := by
  rw [removeOwned_eq]
  split
  · rename_i howner
    have hne : other ≠ key := by
      rintro rfl
      rw [halarm] at howner
      exact hkept rfl (Option.some.inj howner).symm
    rw [h.tasks_remove, filter_payload hne]
  · rfl

/-- The removal of an owner's timer is not noticed by the other owners. -/
theorem Tidy.pending_removeOwned (h : q.Tidy fired) {other : String} {gone : Serial}
    (hne : owner ≠ gone) :
    ((q.removeOwned other gone).2.alarms[key]? = some { id, owner } ↔
        q.alarms[key]? = some { id, owner }) ∧
      ∀ deadline, (q.removeOwned other gone).2.Pending key owner id deadline ↔
        q.Pending key owner id deadline := by
  have halarm : (q.removeOwned other gone).2.alarms[key]? = some { id, owner } ↔
      q.alarms[key]? = some { id, owner } := by
    rw [alarms_removeOwned]
    split
    · rename_i hcond
      refine ⟨nofun, fun hold => ?_⟩
      rw [← hcond.1, hold] at hcond
      exact absurd (Option.some.inj hcond.2) hne
    · rfl
  refine ⟨halarm, fun deadline => ?_⟩
  unfold Pending
  rw [halarm]
  exact and_congr_right fun hold => h.tasks_removeOwned hold fun _ => hne.symm

/-- While a timer stays on record, its task goes at a wake-up that reaches it and at no other
request. -/
theorem Kept.tasks_answer (h : new.Kept q fired) {r : Request} (hrange : r.InRange)
    (halarm : q.alarms[key]? = some { id, owner }) (hvoids : r.voids key owner id = false) :
    (q.answer r).2.timer.wheel.tasks[id]? = some { deadline, payload := key } ↔
      q.timer.wheel.tasks[id]? = some { deadline, payload := key } ∧
        r.reaches q.timer.tick.millis deadline = false := by
  cases r with
  | set clock other gone fireAt =>
    have hne : other ≠ key := of_decide_eq_false hvoids
    rw [h.answer_set]
    dsimp only
    rw [h.tidy.tasks_replace hrange, if_neg (Nat.ne_of_lt (h.tidy.id_lt halarm)),
      filter_payload hne]
    simp [Request.reaches]
  | remove other =>
    have hne : other ≠ key := of_decide_eq_false hvoids
    change (q.remove other).2.timer.wheel.tasks[id]? = _ ↔ _
    rw [h.tidy.tasks_remove, filter_payload hne]
    simp [Request.reaches]
  | removeOwned other gone =>
    change (q.removeOwned other gone).2.timer.wheel.tasks[id]? = _ ↔ _
    rw [h.tidy.tasks_removeOwned halarm (by simpa [Request.voids] using hvoids)]
    simp [Request.reaches]
  | clear => cases hvoids
  | wake clock =>
    obtain ⟨_, _, hcurrent, htasks⟩ := h.tidy.wake_frame clock
    change (q.wake clock).2.timer.wheel.tasks[id]? = _ ↔ _
    rw [htasks, hcurrent]
    unfold Clock.reached
    rw [elapsed_of_inRange hrange, Option.filter_eq_some_iff]
    refine and_congr_right fun htask => ?_
    have hlt : q.timer.wheel.current < deadline := h.tidy.placed.lt htask
    simp [Request.reaches, hlt]
  | acknowledge other gone =>
    change (q.acknowledge other gone).2.timer.wheel.tasks[id]? = _ ↔ _
    rw [acknowledge_frame]
    simp [Request.reaches]

/-- After a request a timer is pending if the request set it, or if it was before and the request
neither takes it off the record nor reaches it. -/
theorem Kept.pending_answer (h : new.Kept q fired) {r : Request} (hrange : r.InRange) :
    (q.answer r).2.Pending key owner id deadline ↔
      (∃ clock fireAt, r = .set clock key owner fireAt ∧ id = q.timer.wheel.nextId ∧
        deadline = q.dueAt clock fireAt) ∨
      (q.Pending key owner id deadline ∧ r.voids key owner id = false ∧
        r.reaches q.timer.tick.millis deadline = false) := by
  unfold Pending
  rw [h.alarms_answer, or_and_right]
  refine or_congr ?_ ?_
  · constructor
    · rintro ⟨⟨clock, fireAt, rfl, rfl⟩, htask⟩
      rw [h.answer_set] at htask
      dsimp only at htask
      rw [h.tidy.tasks_replace hrange, if_pos rfl] at htask
      cases htask
      exact ⟨clock, fireAt, rfl, rfl, rfl⟩
    · rintro ⟨clock, fireAt, rfl, rfl, rfl⟩
      rw [h.answer_set]
      exact ⟨⟨clock, fireAt, rfl, rfl⟩, (h.tidy.tasks_replace hrange _).trans (if_pos rfl)⟩
  · constructor
    · rintro ⟨⟨halarm, hvoids⟩, htask⟩
      obtain ⟨hold, hreaches⟩ := (h.tasks_answer hrange halarm hvoids).mp htask
      exact ⟨⟨halarm, hold⟩, hvoids, hreaches⟩
    · rintro ⟨⟨halarm, hold⟩, hvoids, hreaches⟩
      exact ⟨⟨halarm, hvoids⟩, (h.tasks_answer hrange halarm hvoids).mpr ⟨hold, hreaches⟩⟩

end Expiry

end TimedCache
