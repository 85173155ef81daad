import Mathlib.Algebra.Order.Floor.Div
import TimedCache.Proofs.Expiry.Heeding

/-!
How long a timer waits at most. A timer that is set for a moment is due at the first tick that is at
the moment or after it, or, if that one has passed, at the tick after the last that the clock has
reached. It gets a new number, and no timer's deadline changes afterwards.
-/

namespace TimedCache

namespace Timer

variable {α : Type}

/-- A task for some time from now is due by each tick at which the time has passed. -/
theorem deadline_le (t : Timer α) (htick : 0 < t.tick.wholeMillis) {elapsed after target : Nat}
    (hpassed : elapsed + after ≤ target * t.tick.millis) :
    t.deadline (.ofMillis elapsed) (.ofMillis after) ≤ target := by
  have hstep : t.tick.millis ≤ t.tick.wholeMillis := Nat.min_le_left ..
  have hsum : ((Span.ofMillis elapsed).add (.ofMillis after)).wholeMillis ≤ elapsed + after := by
    unfold Span.add Span.ofMillis Span.wholeMillis
    dsimp only
    omega
  unfold deadline
  dsimp only
  refine (Nat.min_le_left ..).trans ?_
  rw [← Nat.ceilDiv_eq_add_pred_div, ceilDiv_le_iff_le_mul htick, Nat.mul_comm]
  exact hsum.trans (hpassed.trans (Nat.mul_le_mul_left target hstep))

end Timer

namespace Expiry

/-- The tick by which a timer is due that is set for a moment while the clock stands at a tick. -/
def dueTick (q : Expiry) (epoch : Int) (moment set : Nat) : Nat :=
  max (((moment : Int) - epoch).toNat ⌈/⌉ q.timer.tick.millis) (set + 1)

variable {q : Expiry} {fired : List (TimerId × String)} {key : String} {owner : Serial}
  {moment : Nat}

theorem Tidy.millis_pos (h : q.Tidy fired) : 0 < q.timer.tick.millis := by
  have hpos := h.tick_pos
  unfold Span.millis clampWord maxWord
  omega

theorem reached_le (clock : Clock) (tick : Nat) : clock.reached tick ≤ clock.sinceStart / tick := by
  unfold Clock.reached Clock.elapsed Span.millis clampWord
  rw [Span.wholeMillis_ofMillis]
  exact Nat.div_le_div_right (Nat.min_le_left ..)

/-- By the tick at which a timer is due that is set now, neither the moment nor the present is
ahead. -/
theorem Tidy.passed_dueTick (h : q.Tidy fired) (clock : Clock) (hword : moment ≤ maxWord) :
    clock.sinceStart + (moment - clock.timestamp) ≤
      q.dueTick clock.epoch moment (clock.sinceStart / q.timer.tick.millis) *
        q.timer.tick.millis := by
  have hstep := h.millis_pos
  obtain ⟨due, hdue⟩ : ∃ due,
      q.dueTick clock.epoch moment (clock.sinceStart / q.timer.tick.millis) = due := ⟨_, rfl⟩
  have hmoment : ((moment : Int) - clock.epoch).toNat ≤ due * q.timer.tick.millis := by
    rw [Nat.mul_comm, ← ceilDiv_le_iff_le_mul hstep, ← hdue]
    exact Nat.le_max_left ..
  have hnow : clock.sinceStart ≤ due * q.timer.tick.millis := by
    have hlt : clock.sinceStart / q.timer.tick.millis < due := hdue ▸ Nat.le_max_right ..
    exact ((Nat.div_lt_iff_lt_mul hstep).mp hlt).le
  rw [hdue]
  exact wait_le clock hword hnow (by omega)

/-- A timer that is set while the wheel is not ahead of the clock is due by its tick. -/
theorem Tidy.deadline_replace (h : q.Tidy fired) {clock : Clock}
    (hcurrent : q.timer.wheel.current ≤ clock.reached q.timer.tick.millis)
    (hword : moment ≤ maxWord) {task : Task String}
    (htask : (q.replace clock key owner moment).2.timer.wheel.tasks[q.timer.wheel.nextId]? =
      some task) :
    task.deadline ≤ q.dueTick clock.epoch moment (clock.sinceStart / q.timer.tick.millis) := by
  have hpassed := h.passed_dueTick clock hword
  have hpos := h.tick_pos
  have hbehind := hcurrent.trans (reached_le clock q.timer.tick.millis)
  have hnext : q.timer.wheel.current + 1 ≤
      q.dueTick clock.epoch moment (clock.sinceStart / q.timer.tick.millis) :=
    (Nat.succ_le_succ hbehind).trans (Nat.le_max_right ..)
  generalize q.dueTick clock.epoch moment (clock.sinceStart / q.timer.tick.millis) = due at *
  obtain ⟨htick, _, hsame, hnextId⟩ := q.remove_frame key
  rw [replace_eq] at htask
  rw [← htick] at hpassed hpos
  rw [← hnextId] at htask
  generalize (q.remove key).2 = r at *
  change (r.timer.wheel.add _ key).2.tasks[_]? = some task at htask
  rw [Wheel.tasks_add, if_pos rfl] at htask
  cases htask
  rw [← hsame] at hnext
  exact Nat.max_le.mpr ⟨r.timer.deadline_le hpos hpassed, hnext⟩

/-! ## Numbers and deadlines stay -/

/-- A renewed timer is the newest. -/
theorem alarms_renew_self (q : Expiry) (clock : Clock) (key : String) (owner : Serial)
    (moment : Option Nat) :
    (q.renew clock key owner moment).alarms[key]? =
      moment.map fun _ => { id := q.timer.wheel.nextId, owner } := by
  obtain ⟨_, _, _, hnextId⟩ := q.remove_frame key
  cases moment with
  | none => exact (q.alarms_remove key key).trans (if_pos rfl)
  | some moment =>
    change (q.replace clock key owner moment).2.alarms[key]? = _
    rw [replace_eq, ← hnextId]
    exact Std.HashMap.getElem?_insert_self

theorem nextId_lt_renew (q : Expiry) (clock : Clock) (key : String) (owner : Serial)
    (moment : Nat) :
    q.timer.wheel.nextId < (q.renew clock key owner (some moment)).timer.wheel.nextId := by
  obtain ⟨_, _, _, hnextId⟩ := q.remove_frame key
  rw [← hnextId]
  exact Nat.lt_succ_self _

theorem nextId_le_renew (q : Expiry) (clock : Clock) (key : String) (owner : Serial)
    (moment : Option Nat) :
    q.timer.wheel.nextId ≤ (q.renew clock key owner moment).timer.wheel.nextId := by
  cases moment with
  | none => exact (q.remove_frame key).2.2.2.ge
  | some moment => exact (q.nextId_lt_renew clock key owner moment).le

theorem nextId_removeOwned (q : Expiry) (key : String) (owner : Serial) :
    (q.removeOwned key owner).2.timer.wheel.nextId = q.timer.wheel.nextId := by
  rw [removeOwned_eq]
  split
  · exact (q.remove_frame key).2.2.2
  · rfl

theorem Tidy.nextId_wake (h : q.Tidy fired) (clock : Clock) :
    (q.wake clock).2.timer.wheel.nextId = q.timer.wheel.nextId := by
  rw [wake_eq_of_driven h.driven]
  split
  · exact (h.placed.advanceTo _).1.nextId
  · rfl

theorem Tidy.task_of_remove (h : q.Tidy fired) {id : TimerId} {task : Task String}
    (htask : (q.remove key).2.timer.wheel.tasks[id]? = some task) :
    q.timer.wheel.tasks[id]? = some task := by
  rw [h.tasks_remove] at htask
  exact (Option.filter_eq_some_iff.mp htask).1

theorem Tidy.task_of_removeOwned (h : q.Tidy fired) {id : TimerId} {task : Task String}
    (htask : (q.removeOwned key owner).2.timer.wheel.tasks[id]? = some task) :
    q.timer.wheel.tasks[id]? = some task := by
  rw [removeOwned_eq] at htask
  split at htask
  · exact h.task_of_remove htask
  · exact htask

/-- Renewing a timer sets the deadline of no other. -/
theorem Tidy.task_of_renew (h : q.Tidy fired) {clock : Clock} {end? : Option Nat} {id : TimerId}
    (hid : id < q.timer.wheel.nextId) {task : Task String}
    (htask : (q.renew clock key owner end?).timer.wheel.tasks[id]? = some task) :
    q.timer.wheel.tasks[id]? = some task := by
  cases end? with
  | none => exact h.task_of_remove htask
  | some moment =>
    change (q.replace clock key owner moment).2.timer.wheel.tasks[id]? = some task at htask
    rw [replace_eq] at htask
    change ((q.remove key).2.timer.wheel.add _ key).2.tasks[id]? = some task at htask
    rw [Wheel.tasks_add, if_neg] at htask
    · exact h.task_of_remove htask
    · rw [(q.remove_frame key).2.2.2]
      exact Nat.ne_of_lt hid

end Expiry

end TimedCache
