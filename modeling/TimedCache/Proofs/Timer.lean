import Mathlib.Algebra.Order.Floor.Div
import TimedCache.Proofs.Expiry

/-!
A timer under requests in any order. The driver looks at whole milliseconds: a deadline is rounded
up to a tick from the whole milliseconds of its moment, and a wake-up down to one. So a task never
fires before the millisecond of its moment, but it may fire within that millisecond.
-/

namespace TimedCache

namespace Timer

/-- What is asked of a timer, with the time since the start where it matters. The driver wakes
whenever it does. -/
inductive Request (α : Type) where
  | schedule (elapsed after : Span) (payload : α)
  | cancel (id : TimerId)
  | clear
  | stop
  | wake (elapsed : Span)

variable {α : Type} {fatal : α → Bool} {t : Timer α} {id : TimerId} {task : Task α}

/-- Serves a request; what fires is handed out. A timer whose time has run out takes no task. -/
def answer (fatal : α → Bool) (t : Timer α) : Request α → List (TimerId × α) × Timer α
  | .schedule elapsed after payload =>
    match t.schedule elapsed after payload with
    | .ok (_, t) => ([], t)
    | .error _ => ([], t)
  | .cancel id => ([], (t.cancel id).2)
  | .clear => ([], t.clear)
  | .stop => ([], t.stop)
  | .wake elapsed => t.wake elapsed fatal

def after (fatal : α → Bool) (t : Timer α) (requests : List (Request α)) : Timer α :=
  requests.foldl (fun t r => (t.answer fatal r).2) t

/-! ## Rounding -/

/-- A tick that is reached from the whole milliseconds of a moment upwards, and from those of a
wake-up downwards, has the wake-up in the millisecond of the moment or later. -/
theorem millis_le_of_deadline_le (htick : 0 < t.tick.wholeMillis) {elapsed after wake : Span}
    (h : t.deadline elapsed after ≤ wake.millis / t.tick.millis) :
    (elapsed.add after).millis ≤ wake.millis := by
  unfold deadline at h
  dsimp only at h
  rw [← Nat.ceilDiv_eq_add_pred_div] at h
  unfold Span.millis at h ⊢
  generalize (elapsed.add after).wholeMillis = due at h ⊢
  generalize t.tick.wholeMillis = step at h htick
  generalize hlast : clampWord wake.wholeMillis = last at h ⊢
  have hword : last ≤ maxWord := hlast ▸ clampWord_le _
  -- At the last millisecond of a word every moment counts as reached.
  rcases Nat.lt_or_ge last maxWord with hbelow | htop
  · have hstep : clampWord step ≤ step := Nat.min_le_left ..
    have hquotient : last / clampWord step ≤ last := Nat.div_le_self ..
    have hceil : due ⌈/⌉ step ≤ last / clampWord step :=
      (min_le_iff.mp h).resolve_right (by omega)
    rw [ceilDiv_le_iff_le_mul htick] at hceil
    rcases Nat.le_total step maxWord with hsmall | hlarge
    · rw [clampWord_of_le hsmall] at hceil
      have hfloor := Nat.mul_div_le last step
      exact (Nat.min_le_left ..).trans (hceil.trans hfloor)
    · have hzero : last / clampWord step = 0 := by
        refine Nat.div_eq_of_lt ?_
        unfold clampWord
        omega
      rw [hzero, Nat.mul_zero] at hceil
      exact (Nat.min_le_left ..).trans (hceil.trans (Nat.zero_le _))
  · exact (clampWord_le _).trans htop

/-! ## Requests one by one -/

theorem tick_start_pos (tick : Span) (slots : Nat) :
    0 < (start tick slots : Timer α).tick.wholeMillis := by
  have hmax : (start tick slots : Timer α).tick.nanos = max tick.nanos 1000000 := by
    change (if tick.nanos ≤ 1000000 then Span.ofMillis 1 else tick).nanos = _
    split
    · rename_i hsmall
      exact (Nat.max_eq_right hsmall).symm
    · rename_i hlarge
      exact (Nat.max_eq_left (Nat.le_of_not_le hlarge)).symm
  unfold Span.wholeMillis
  rw [hmax]
  omega

theorem deadline_le_maxWord (t : Timer α) (elapsed after : Span) :
    t.deadline elapsed after ≤ maxWord := clampWord_le _

theorem schedule_eq (t : Timer α) (elapsed after : Span) (payload : α) :
    t.schedule elapsed after payload =
      if t.wheel.atLastTick then .error .lastTick
      else .ok (t.wheel.nextId,
        { t with wheel := (t.wheel.add (t.deadline elapsed after) payload).2 }) := rfl

theorem answer_schedule (fatal : α → Bool) (t : Timer α) (elapsed after : Span) (payload : α) :
    t.answer fatal (.schedule elapsed after payload) =
      ([], if t.wheel.atLastTick then t
        else { t with wheel := (t.wheel.add (t.deadline elapsed after) payload).2 }) := by
  unfold answer
  dsimp only
  rw [schedule_eq]
  cases t.wheel.atLastTick <;> rfl

theorem mem_of_mem_upTo {test : α → Bool} {due : List (TimerId × α)} {given : TimerId × α}
    (h : given ∈ upTo test due) : given ∈ due := by
  induction due with
  | nil => exact h
  | cons first rest ih =>
    unfold upTo at h
    split at h
    · exact List.mem_singleton.mp h ▸ List.mem_cons_self
    · rcases List.mem_cons.mp h with rfl | hrest
      · exact List.mem_cons_self
      · exact List.mem_cons_of_mem _ (ih hrest)

/-- What fires at a wake-up had a task whose tick the wake-up reaches. -/
theorem deadline_le_of_mem_wake (h : t.wheel.Placed) {elapsed : Span} {payload : α}
    (hfires : (id, payload) ∈ (t.wake elapsed fatal).1) :
    ∃ task : Task α, t.wheel.tasks[id]? = some task ∧ task.payload = payload ∧
      task.deadline ≤ elapsed.millis / t.tick.millis := by
  unfold wake at hfires
  dsimp only at hfires
  split at hfires
  · rename_i hdriven
    have hlt : t.wheel.current < elapsed.millis / t.tick.millis := by
      simpa using (Bool.and_eq_true_iff.mp hdriven).2
    obtain ⟨hhands, _, hcurrent⟩ := h.advanceTo (elapsed.millis / t.tick.millis)
    obtain ⟨task, htask, hpayload, hdue⟩ := hhands.given id payload (mem_of_mem_upTo hfires)
    rw [hcurrent, Nat.max_eq_right hlt.le] at hdue
    exact ⟨task, htask, hpayload, hdue⟩
  · cases hfires

/-- A wake-up of a driver that nothing brings down fires each task whose tick it reaches. -/
theorem mem_wake_of_deadline_le (h : t.wheel.Placed) (hdriven : t.driven = true)
    (htask : t.wheel.tasks[id]? = some task) {elapsed : Span}
    (hdue : task.deadline ≤ elapsed.millis / t.tick.millis) :
    (id, task.payload) ∈ (t.wake elapsed fun _ => false).1 := by
  have hlt := h.lt htask
  unfold wake
  dsimp only
  rw [hdriven, Bool.true_and, if_pos (decide_eq_true (hlt.trans_le hdue))]
  dsimp only
  rw [Expiry.upTo_never]
  obtain ⟨hhands, _, _⟩ := h.advanceTo (elapsed.millis / t.tick.millis)
  have hleft := hhands.left id
  rw [h.tasks_advanceTo, htask, Option.filter_some,
    if_neg (by simpa using hdue)] at hleft
  by_cases hout : id ∈ (t.wheel.advanceTo (elapsed.millis / t.tick.millis)).1.map (·.1)
  · obtain ⟨⟨_, payload⟩, hin, rfl⟩ := List.mem_map.mp hout
    obtain ⟨known, hknown, rfl, _⟩ := hhands.given _ payload hin
    cases htask.symm.trans hknown
    exact hin
  · rw [if_neg hout] at hleft
    cases hleft

/-- A timer after some requests, of which an id was given out before them for a task. -/
structure Bears (t : Timer α) (tick : Span) (id : TimerId) (task : Task α) : Prop where
  placed : t.wheel.Placed
  tick_eq : t.tick = tick
  given : id < t.wheel.nextId
  /-- The id never stands for another task. -/
  task_eq : ∀ other, t.wheel.tasks[id]? = some other → other = task

namespace Bears

variable {tick : Span}

theorem cancel (h : t.Bears tick id task) (other : TimerId) :
    (t.cancel other).2.Bears tick id task where
  placed := h.placed.cancel other
  tick_eq := h.tick_eq
  given := h.given
  task_eq known hknown := by
    change (t.wheel.cancel other).2.tasks[id]? = some known at hknown
    exact h.task_eq known (Wheel.of_tasks_cancel hknown).2

theorem clear (h : t.Bears tick id task) : t.clear.Bears tick id task where
  placed := h.placed.clear
  tick_eq := h.tick_eq
  given := h.given
  task_eq known hknown := by
    change t.wheel.clear.tasks[id]? = some known at hknown
    rw [Wheel.tasks_clear] at hknown
    cases hknown

theorem wake (h : t.Bears tick id task) (elapsed : Span) (fatal : α → Bool) :
    (t.wake elapsed fatal).2.Bears tick id task := by
  unfold Timer.wake
  dsimp only
  split
  · obtain ⟨hhands, hplaced, _⟩ := h.placed.advanceTo (elapsed.millis / t.tick.millis)
    refine ⟨hplaced, h.tick_eq, ?_, ?_⟩
    · rw [hhands.nextId]
      exact h.given
    · intro known hknown
      rw [hhands.left] at hknown
      split at hknown
      · cases hknown
      · exact h.task_eq known hknown
  · exact h

theorem schedule (h : t.Bears tick id task) (elapsed after : Span) (payload : α)
    (fatal : α → Bool) :
    (t.answer fatal (.schedule elapsed after payload)).2.Bears tick id task := by
  rw [answer_schedule]
  cases hlast : t.wheel.atLastTick with
  | true => exact h
  | false =>
    refine ⟨h.placed.add payload (t.deadline_le_maxWord elapsed after) hlast, h.tick_eq,
      Nat.lt_succ_of_lt h.given, ?_⟩
    intro known hknown
    change (t.wheel.add _ payload).2.tasks[id]? = some known at hknown
    rw [Wheel.tasks_add, if_neg (Nat.ne_of_lt h.given)] at hknown
    exact h.task_eq known hknown

theorem answer (h : t.Bears tick id task) (fatal : α → Bool) (r : Request α) :
    (t.answer fatal r).2.Bears tick id task := by
  cases r with
  | schedule elapsed after payload => exact h.schedule elapsed after payload fatal
  | cancel other => exact h.cancel other
  | clear => exact h.clear
  | stop => exact ⟨h.clear.placed, h.tick_eq, h.given, h.clear.task_eq⟩
  | wake elapsed => exact h.wake elapsed fatal

theorem after (h : t.Bears tick id task) (fatal : α → Bool) (requests : List (Request α)) :
    (t.after fatal requests).Bears tick id task := by
  induction requests generalizing t with
  | nil => exact h
  | cons r rest ih => exact ih (h.answer fatal r)

end Bears

/-- A new timer gives out its numbers from one on, so zero may stand for any task. -/
theorem bears_start (tick : Span) (slots : Nat) (task : Task α) :
    (start tick slots).Bears (start tick slots : Timer α).tick 0 task where
  placed := Wheel.placed_withSlots slots
  tick_eq := rfl
  given := Nat.one_pos
  task_eq other hother := by
    change (∅ : Std.HashMap TimerId (Task α))[0]? = some other at hother
    simp at hother

/-- A task that is scheduled is due at the tick of its moment or later. -/
theorem Bears.of_schedule {tick : Span} {known : Task α} (h : t.Bears tick 0 known)
    {elapsed after : Span} {payload : α} {t' : Timer α}
    (hset : t.schedule elapsed after payload = .ok (id, t')) :
    ∃ task : Task α, t'.Bears tick id task ∧ task.payload = payload ∧
      t.deadline elapsed after ≤ task.deadline := by
  rw [schedule_eq] at hset
  cases hlast : t.wheel.atLastTick with
  | true =>
    rw [hlast] at hset
    cases hset
  | false =>
    rw [hlast] at hset
    cases hset
    refine ⟨⟨max (t.deadline elapsed after) (t.wheel.current + 1), payload⟩, ?_, rfl,
      Nat.le_max_left ..⟩
    refine ⟨h.placed.add payload (t.deadline_le_maxWord elapsed after) hlast, h.tick_eq,
      Nat.lt_succ_self _, ?_⟩
    intro other hother
    change (t.wheel.add _ payload).2.tasks[t.wheel.nextId]? = some other at hother
    rw [Wheel.tasks_add, if_pos rfl] at hother
    exact (Option.some.inj hother).symm

/-! ## Never early -/

/-- In whole milliseconds that a word can count, nothing is lost but the rest of a millisecond. -/
theorem add_le_of_millis_le {elapsed after wake : Span}
    (h : (elapsed.add after).millis ≤ wake.millis) (hword : wake.wholeMillis < maxWord) :
    elapsed.nanos + after.nanos < wake.nanos + 1000000 ∧
      (1000000 ∣ elapsed.nanos + after.nanos → elapsed.nanos + after.nanos ≤ wake.nanos) := by
  unfold Span.millis at h
  rw [clampWord_of_le hword.le] at h
  have hwhole : (elapsed.add after).wholeMillis ≤ wake.wholeMillis :=
    (min_le_iff.mp h).resolve_right (by omega)
  unfold Span.add Span.longest Span.wholeMillis at hwhole
  unfold Span.wholeMillis at hword
  dsimp only at hwhole
  unfold maxWord at hwhole hword
  omega

/-- A task fires at no request but a wake-up, with the payload it was scheduled with, and in the
millisecond of its moment or later. As long as a word counts the milliseconds, that is less than a
millisecond before its moment, and not before it at all if the moment is a whole millisecond. -/
theorem fires_in_millisecond_or_later (tick : Span) (slots : Nat) (fatal : α → Bool)
    (earlier between : List (Request α)) {elapsed after : Span} {payload payload' : α}
    (hset : ((start tick slots).after fatal earlier).schedule elapsed after payload = .ok (id, t))
    {r : Request α} (hfires : (id, payload') ∈ ((t.after fatal between).answer fatal r).1) :
    ∃ wake, r = .wake wake ∧ payload' = payload ∧
      (elapsed.add after).millis ≤ wake.millis ∧
      (wake.wholeMillis < maxWord →
        elapsed.nanos + after.nanos < wake.nanos + 1000000 ∧
          (1000000 ∣ elapsed.nanos + after.nanos →
            elapsed.nanos + after.nanos ≤ wake.nanos)) := by
  have hstart := (bears_start tick slots ⟨0, payload⟩).after fatal earlier
  obtain ⟨task, hbears, hpayload, hdue⟩ := hstart.of_schedule hset
  have hlater := hbears.after fatal between
  cases r with
  | schedule elapsed' after' other =>
    rw [answer_schedule] at hfires
    cases hfires
  | cancel other => cases hfires
  | clear => cases hfires
  | stop => cases hfires
  | wake wake =>
    obtain ⟨known, hknown, hsame, hreached⟩ := deadline_le_of_mem_wake hlater.placed hfires
    obtain rfl := hlater.task_eq known hknown
    have hpos := tick_start_pos (α := α) tick slots
    rw [hlater.tick_eq, ← hstart.tick_eq] at hreached
    rw [← hstart.tick_eq] at hpos
    have hmillis := millis_le_of_deadline_le hpos (hdue.trans hreached)
    exact ⟨wake, rfl, hsame.symm.trans hpayload, hmillis, add_le_of_millis_le hmillis⟩

/-- A task for a millisecond and a half fires after one millisecond: half a millisecond early. -/
theorem fires_in_millisecond_or_later_half :
    ∃ t : Timer String, (start (.ofMillis 1) 4).schedule .zero ⟨1500000⟩ "a" = .ok (1, t) ∧
      (1, "a") ∈ (t.answer (fun _ => false) (.wake (.ofMillis 1))).1 ∧
      (Span.ofMillis 1).nanos < Span.zero.nanos + 1500000 ∧
      Span.zero.nanos + 1500000 < (Span.ofMillis 1).nanos + 1000000 := by
  let t : Timer String := ((start (.ofMillis 1) 4).add .zero ⟨1500000⟩ "a").2
  have hset : (start (.ofMillis 1) 4).schedule .zero ⟨1500000⟩ "a" = .ok (1, t) := rfl
  have hplaced : t.wheel.Placed :=
    (Wheel.placed_withSlots 4).add "a" (deadline_le_maxWord _ _ _) rfl
  have htask : t.wheel.tasks[1]? = some { deadline := 1, payload := "a" } :=
    (Wheel.tasks_add _ _ _ _).trans (if_pos rfl)
  have hfires : (1, "a") ∈ (t.answer (fun _ => false) (.wake (.ofMillis 1))).1 :=
    mem_wake_of_deadline_le hplaced rfl htask (by decide)
  obtain ⟨wake, hwake, _, _, hearly⟩ :=
    fires_in_millisecond_or_later (.ofMillis 1) 4 (fun _ => false) [] [] hset hfires
  cases hwake
  exact ⟨t, hset, hfires, by decide, (hearly (by decide)).1⟩

end Timer

end TimedCache
