import TimedCache.Proofs.Expiry

/-!
Timers that are not late. A timer heeds a moment of its entry if it has fired already, or fires at
the latest with the first tick to come that is at the moment or after it. A timer that was set for
a moment heeds it and all later ones, whatever becomes of the timers of other entries. The ticks to
come are those that the clock has yet to reach: the wheel itself may lag behind it.
-/

namespace TimedCache

/-- The Unix time at the start of the cache, in milliseconds. -/
def Clock.epoch (c : Clock) : Int := c.unix - c.sinceStart

theorem Clock.epoch_lapse (c : Clock) (ms : Nat) : (c.lapse ms ms).epoch = c.epoch := by
  unfold epoch lapse
  push_cast
  omega

/-- The last tick that the clock has reached, as far as a word of milliseconds counts. -/
def Clock.reached (c : Clock) (tick : Nat) : Nat := c.elapsed.millis / tick

theorem Clock.reached_mono (c : Clock) (ms steady tick : Nat) :
    c.reached tick ≤ (c.lapse ms steady).reached tick := by
  unfold reached elapsed lapse Span.millis clampWord
  dsimp only
  rw [Span.wholeMillis_ofMillis, Span.wholeMillis_ofMillis]
  apply Nat.div_le_div_right
  omega

/-- The last tick passed is not in the future. -/
theorem Clock.boundary_le (c : Clock) (tick : Nat) :
    c.epoch + (c.reached tick * tick : Nat) ≤ c.unix := by
  have hle : c.reached tick * tick ≤ c.elapsed.millis := Nat.div_mul_le_self _ tick
  have hmillis : c.elapsed.millis ≤ c.sinceStart := by
    unfold elapsed Span.millis clampWord
    rw [Span.wholeMillis_ofMillis]
    omega
  unfold epoch
  omega

namespace Expiry

/-- The timer of the key is the entry's, and if it has yet to fire, it is due by each tick to come
that is not before the moment. -/
def Heeds (q : Expiry) (clock : Clock) (key : String) (owner : Serial) (moment : Nat) : Prop :=
  ∃ id, q.alarms[key]? = some { id, owner } ∧
    ∀ task, q.timer.wheel.tasks[id]? = some task →
      ∀ target, clock.reached q.timer.tick.millis < target →
      target * q.timer.tick.millis ≤ maxWord →
      (moment : Int) ≤ clock.epoch + (target * q.timer.tick.millis : Nat) → task.deadline ≤ target

variable {q : Expiry} {fired : List (TimerId × String)} {clock : Clock} {key other : String}
  {owner : Serial} {moment : Nat}

theorem Heeds.of_le (h : q.Heeds clock key owner moment) {later : Nat} (hle : moment ≤ later) :
    q.Heeds clock key owner later := by
  obtain ⟨id, halarm, hdue⟩ := h
  refine ⟨id, halarm, fun task htask target hlt hword htime => ?_⟩
  exact hdue task htask target hlt hword (by omega)

/-- Where the timer of the entry stays and none of the tasks is new, the timer heeds its moment as
before. -/
theorem Heeds.of_subset {q' : Expiry} (h : q.Heeds clock key owner moment)
    (halarms : q'.alarms[key]? = q.alarms[key]?)
    (htasks : ∀ id task, q'.timer.wheel.tasks[id]? = some task →
      q.timer.wheel.tasks[id]? = some task ∨ q.timer.wheel.nextId ≤ id)
    (hold : ∀ alarm, q.alarms[key]? = some alarm → alarm.id < q.timer.wheel.nextId)
    (htick : q'.timer.tick = q.timer.tick) :
    q'.Heeds clock key owner moment := by
  obtain ⟨id, halarm, hdue⟩ := h
  refine ⟨id, halarms.trans halarm, fun task htask target hlt hword htime => ?_⟩
  rw [htick] at hlt hword htime
  rcases htasks id task htask with hsame | hnew
  · exact hdue task hsame target hlt hword htime
  · exact absurd (hold _ halarm) (Nat.not_lt.mpr hnew)

/-- Time passes, on both clocks alike, and fewer ticks are to come. -/
theorem Heeds.lapse (h : q.Heeds clock key owner moment) (ms : Nat) :
    q.Heeds (clock.lapse ms ms) key owner moment := by
  obtain ⟨id, halarm, hdue⟩ := h
  refine ⟨id, halarm, fun task htask target hlt hword htime => ?_⟩
  rw [Clock.epoch_lapse] at htime
  exact hdue task htask target ((clock.reached_mono ms ms _).trans_lt hlt) hword htime

/-- A timer on record was numbered before the next one. -/
theorem Tidy.id_lt (h : q.Tidy fired) {alarm : Alarm} (halarm : q.alarms[key]? = some alarm) :
    alarm.id < q.timer.wheel.nextId := by
  rcases h.recorded key alarm halarm with hin | ⟨deadline, htask⟩
  · exact (h.fired_old alarm.id key hin).1
  · exact h.placed.fresh alarm.id _ htask

theorem Tidy.heeds_remove (h : q.Tidy fired) (hne : key ≠ other)
    (hheeds : q.Heeds clock key owner moment) :
    (q.remove other).2.Heeds clock key owner moment := by
  obtain ⟨htick, _⟩ := q.remove_frame other
  refine hheeds.of_subset ?_ ?_ (fun _ halarm => h.id_lt halarm) htick
  · rw [alarms_remove, if_neg hne]
  · intro id task htask
    rw [h.tasks_remove] at htask
    exact Or.inl (Option.filter_eq_some_iff.mp htask).1

/-- The removal of another entry's timer, even under the same key, is not noticed. -/
theorem Tidy.heeds_removeOwned (h : q.Tidy fired) {gone : Serial} (hne : owner ≠ gone)
    (hheeds : q.Heeds clock key owner moment) :
    (q.removeOwned other gone).2.Heeds clock key owner moment := by
  rw [removeOwned_eq]
  split
  · rename_i howner
    refine h.heeds_remove ?_ hheeds
    rintro rfl
    obtain ⟨id, halarm, _⟩ := hheeds
    rw [halarm] at howner
    exact hne (Option.some.inj howner)
  · exact hheeds

theorem Tidy.heeds_renew_of_ne (h : q.Tidy fired) (hne : key ≠ other) (other_owner : Serial)
    (renewed : Option Nat) (hheeds : q.Heeds clock key owner moment) :
    (q.renew clock other other_owner renewed).Heeds clock key owner moment := by
  have hremoved := h.heeds_remove hne hheeds
  cases renewed with
  | none => exact hremoved
  | some renewed =>
    have hid {alarm : Alarm} (halarm : (q.remove other).2.alarms[key]? = some alarm) :=
      (h.remove other).id_lt halarm
    change (q.replace clock other other_owner renewed).2.Heeds clock key owner moment
    rw [replace_eq]
    generalize (q.remove other).2 = r at hremoved hid ⊢
    refine hremoved.of_subset ?_ ?_ (fun _ => hid) rfl
    · change (r.alarms.insert other _)[key]? = _
      rw [Std.HashMap.getElem?_insert, if_neg (by simpa using hne.symm)]
    · intro id task htask
      change (r.timer.wheel.add _ other).2.tasks[id]? = some task at htask
      rw [Wheel.tasks_add] at htask
      split at htask
      · rename_i heq
        exact Or.inr (Nat.le_of_eq heq.symm)
      · exact Or.inl htask

/-- Counted from now on, a moment comes no later than on the calendar. -/
theorem wait_le (clock : Clock) (hword : moment ≤ maxWord) {passed : Nat}
    (hnow : clock.sinceStart ≤ passed) (htime : (moment : Int) ≤ clock.epoch + (passed : Nat)) :
    clock.sinceStart + (moment - clock.timestamp) ≤ passed := by
  unfold Clock.epoch at htime
  unfold Clock.timestamp clampWord
  omega

/-- A timer heeds the moment for which it is set, on a wheel that is not ahead of the clock. -/
theorem Tidy.heeds_replace (h : q.Tidy fired) (clock : Clock)
    (hcurrent : q.timer.wheel.current ≤ clock.reached q.timer.tick.millis)
    (key : String) (owner : Serial) (hword : moment ≤ maxWord) :
    (q.replace clock key owner moment).2.Heeds clock key owner moment := by
  obtain ⟨htick, _, hsame, _⟩ := q.remove_frame key
  have hpos := h.tick_pos
  rw [← htick] at hpos
  rw [← hsame, ← htick] at hcurrent
  rw [replace_eq]
  generalize (q.remove key).2 = r at hpos hcurrent ⊢
  refine ⟨r.timer.wheel.nextId, Std.HashMap.getElem?_insert_self, ?_⟩
  intro task htask target hlt hfits htime
  change (r.timer.wheel.add _ key).2.tasks[_]? = some task at htask
  rw [Wheel.tasks_add, if_pos rfl] at htask
  cases htask
  change clock.reached r.timer.tick.millis < target at hlt
  change target * r.timer.tick.millis ≤ maxWord at hfits
  change (moment : Int) ≤ clock.epoch + (target * r.timer.tick.millis : Nat) at htime
  change max (r.timer.deadline (.ofMillis clock.sinceStart) (.ofMillis (moment - clock.timestamp)))
    (r.timer.wheel.current + 1) ≤ target
  have hnow : clock.sinceStart ≤ target * r.timer.tick.millis := by
    have hstep : 0 < r.timer.tick.millis := by
      unfold Span.millis clampWord maxWord
      omega
    have hpassed := (Nat.div_lt_iff_lt_mul hstep).mp hlt
    unfold Clock.elapsed Span.millis at hpassed
    rw [Span.wholeMillis_ofMillis] at hpassed
    unfold clampWord at hpassed
    change _ < target * r.timer.tick.millis at hpassed
    omega
  have hwait := wait_le clock hword hnow htime
  have hdue := (r.timer.deadline_le_iff hpos (Nat.le_trans hwait hfits) target).mpr hwait
  exact Nat.max_le.mpr ⟨hdue, hcurrent.trans_lt hlt⟩

/-! ## Waking and acknowledging -/

theorem Tidy.wake_frame (h : q.Tidy fired) (clock : Clock) :
    (q.wake clock).2.alarms = q.alarms ∧ (q.wake clock).2.timer.tick = q.timer.tick ∧
      (q.wake clock).2.timer.wheel.current =
        max q.timer.wheel.current (clock.reached q.timer.tick.millis) ∧
      ∀ id : TimerId, (q.wake clock).2.timer.wheel.tasks[id]? =
        (q.timer.wheel.tasks[id]?).filter fun task =>
          decide ((q.wake clock).2.timer.wheel.current < task.deadline) := by
  rw [wake_eq_of_driven h.driven]
  split
  · rename_i hlt
    obtain ⟨_, _, hcurrent⟩ := h.placed.advanceTo (clock.elapsed.millis / q.timer.tick.millis)
    refine ⟨rfl, rfl, hcurrent, fun id => ?_⟩
    dsimp only
    rw [hcurrent, Nat.max_eq_right (Nat.le_of_lt hlt)]
    exact h.placed.tasks_advanceTo _ id
  · rename_i hge
    refine ⟨rfl, rfl, (Nat.max_eq_left (Nat.not_lt.mp hge)).symm, fun id => ?_⟩
    dsimp only
    cases htask : q.timer.wheel.tasks[id]? with
    | none => rfl
    | some task => rw [Option.filter_some, if_pos (decide_eq_true (h.placed.lt htask))]

theorem Tidy.heeds_wake (h : q.Tidy fired) (now : Clock)
    (hheeds : q.Heeds clock key owner moment) :
    (q.wake now).2.Heeds clock key owner moment := by
  obtain ⟨halarms, htick, _, htasks⟩ := h.wake_frame now
  refine hheeds.of_subset (by rw [halarms]) ?_ (fun _ halarm => h.id_lt halarm) htick
  intro id task htask
  rw [htasks] at htask
  exact Or.inl (Option.filter_eq_some_iff.mp htask).1

/-- The timer that heeds a moment has fired once the wheel wakes at a later tick that is at the
moment or after it. -/
theorem Tidy.fired_of_heeds (h : q.Tidy fired) (hheeds : q.Heeds clock key owner moment)
    (now : Clock) (hcurrent : q.timer.wheel.current ≤ clock.reached q.timer.tick.millis)
    (hlt : clock.reached q.timer.tick.millis < now.reached q.timer.tick.millis)
    (htime : (moment : Int) ≤
      clock.epoch + (now.reached q.timer.tick.millis * q.timer.tick.millis : Nat)) :
    ∃ id, (q.wake now).2.alarms[key]? = some { id, owner } ∧
      (id, key) ∈ fired ++ (q.wake now).1 := by
  obtain ⟨halarms, _, hmoved, htasks⟩ := h.wake_frame now
  obtain ⟨id, halarm, hdue⟩ := hheeds
  rw [← halarms] at halarm
  refine ⟨id, halarm, ?_⟩
  rcases (h.wake now).recorded key _ halarm with hin | ⟨deadline, htask⟩
  · exact hin
  · rw [htasks, hmoved, Nat.max_eq_right (hcurrent.trans hlt.le)] at htask
    obtain ⟨hold, hlate⟩ := Option.filter_eq_some_iff.mp htask
    have hword : now.reached q.timer.tick.millis * q.timer.tick.millis ≤ maxWord :=
      Nat.le_trans (Nat.div_mul_le_self _ _) (clampWord_le _)
    have hle := hdue _ hold _ hlt hword htime
    exact absurd (of_decide_eq_true hlate) (Nat.not_lt.mpr hle)

theorem Tidy.heeds_acknowledge (h : q.Tidy fired) {id : TimerId}
    (hne : key = other → (q.alarms[other]?).map (·.id) ≠ some id)
    (hheeds : q.Heeds clock key owner moment) :
    (q.acknowledge other id).2.Heeds clock key owner moment := by
  have htimer := q.acknowledge_frame other id
  refine hheeds.of_subset ?_ ?_ (fun _ halarm => h.id_lt halarm) (by rw [htimer])
  · rw [alarms_acknowledge, if_neg fun hcond => hne hcond.1 hcond.2]
  · intro _ task htask
    rw [htimer] at htask
    exact Or.inl htask

end Expiry

end TimedCache
