import TimedCache.Expiry
import TimedCache.Proofs.Wheel.Advance

/-!
The timers of keys. The timer on record for a key has a task in the wheel until it fires, and every
task belongs to a timer on record. A timer fires at the first wake-up by whose tick its moment has
come. All this also holds while timers that have fired wait to be acknowledged, though by then some
of them are not on record any more.
-/

namespace TimedCache

namespace Timer

variable {α : Type}

/-- Whole milliseconds of a tick, rounded up, are at most some ticks just if the milliseconds fit. -/
theorem deadline_le_iff (t : Timer α) (htick : 0 < t.tick.wholeMillis) {elapsed after : Nat}
    (hword : elapsed + after ≤ maxWord) (target : Nat) :
    t.deadline (.ofMillis elapsed) (.ofMillis after) ≤ target ↔
      elapsed + after ≤ target * t.tick.millis := by
  have hsum : ((Span.ofMillis elapsed).add (.ofMillis after)).wholeMillis = elapsed + after := by
    unfold Span.add Span.ofMillis Span.wholeMillis Span.longest
    dsimp only
    unfold maxWord at hword ⊢
    omega
  unfold deadline Span.millis
  rw [hsum]
  dsimp only
  generalize t.tick.wholeMillis = step at htick ⊢
  generalize elapsed + after = due at hword ⊢
  have hceil : (due + step - 1) / step ≤ target ↔ due ≤ target * step := by
    rw [← Nat.lt_succ_iff, Nat.div_lt_iff_lt_mul htick, Nat.succ_mul]
    omega
  have hexact : clampWord ((due + step - 1) / step) = (due + step - 1) / step := by
    apply clampWord_of_le
    have hle : (due + step - 1) / step ≤ due := by
      rw [← Nat.lt_succ_iff, Nat.div_lt_iff_lt_mul htick, Nat.succ_mul]
      have hmul := Nat.le_mul_of_pos_right due htick
      omega
    omega
  rw [hexact, hceil]
  rcases Nat.le_total step maxWord with hle | hle
  · rw [clampWord_of_le hle]
  · rw [show clampWord step = maxWord from Nat.min_eq_right hle]
    rcases Nat.eq_zero_or_pos target with rfl | hpos
    · simp
    · have hstep := Nat.le_mul_of_pos_left step hpos
      have htop := Nat.le_mul_of_pos_left maxWord hpos
      omega

end Timer

namespace Expiry

/-- Each timer on record has a task or is among those that have fired, and every task has its timer
on record. What has fired may have been replaced or removed since. -/
structure Tidy (q : Expiry) (fired : List (TimerId × String)) : Prop where
  placed : q.timer.wheel.Placed
  driven : q.timer.driven = true
  tick_pos : 0 < q.timer.tick.wholeMillis
  recorded : ∀ (key : String) (alarm : Alarm), q.alarms[key]? = some alarm →
    (alarm.id, key) ∈ fired ∨
      ∃ deadline, q.timer.wheel.tasks[alarm.id]? = some { deadline, payload := key }
  owned : ∀ (id : TimerId) (task : Task String), q.timer.wheel.tasks[id]? = some task →
    ∃ owner, q.alarms[task.payload]? = some { id, owner }
  fired_old : ∀ id key, (id, key) ∈ fired →
    id < q.timer.wheel.nextId ∧ q.timer.wheel.tasks[id]? = none

/-- What has fired is still on record. -/
structure Sound (q : Expiry) (fired : List (TimerId × String)) : Prop extends Tidy q fired where
  fired_owned : ∀ id key, (id, key) ∈ fired → ∃ owner, q.alarms[key]? = some { id, owner }
  fired_nodup : fired.Nodup

/-- The timer of a key was set for an entry and waits for a tick. -/
def Waits (q : Expiry) (key : String) (owner : Serial) (deadline : Nat) : Prop :=
  ∃ id, q.alarms[key]? = some { id, owner } ∧
    q.timer.wheel.tasks[id]? = some { deadline, payload := key }

/-- At the ticks to come a deadline has passed just if the moment has, counted from an epoch. -/
def Times (q : Expiry) (epoch moment deadline : Nat) : Prop :=
  ∀ target, q.timer.wheel.current < target →
    (deadline ≤ target ↔ moment ≤ epoch + target * q.timer.tick.millis)

theorem atLastTick_of_start {q : Expiry} (h : q.timer.wheel.current = 0) : q.atLastTick = false := by
  unfold Expiry.atLastTick Timer.atLastTick Wheel.atLastTick
  rw [h]
  rfl

theorem tidy_start (tick : Span) (slots : Nat) : (start tick slots).Tidy [] := by
  refine ⟨Wheel.placed_withSlots slots, rfl, ?_, ?_, ?_, nofun⟩
  · change 0 < (max tick (.ofMillis 1)).wholeMillis
    have hle : 1000000 ≤ (max tick (.ofMillis 1)).nanos := by
      change 1000000 ≤ (if tick.nanos ≤ 1 * 1000000 then Span.ofMillis 1 else tick).nanos
      split
      · exact Nat.le_refl _
      · omega
    unfold Span.wholeMillis
    omega
  · intro key alarm halarm
    simp [start] at halarm
  · intro id task htask
    change (Wheel.withSlots slots : Wheel String).tasks[id]? = some task at htask
    simp [Wheel.withSlots] at htask

variable {q : Expiry} {fired : List (TimerId × String)}

theorem Tidy.sound (h : q.Tidy []) : q.Sound [] := ⟨h, nofun, List.nodup_nil⟩

theorem sound_start (tick : Span) (slots : Nat) : (start tick slots).Sound [] :=
  (tidy_start tick slots).sound

/-- Each key has fired once at most. -/
theorem Sound.fired_keys (h : q.Sound fired) : (fired.map (·.2)).Nodup := by
  refine h.fired_nodup.map_on ?_
  rintro ⟨id, key⟩ hin ⟨other, _⟩ hother rfl
  obtain ⟨_, howner⟩ := h.fired_owned id key hin
  obtain ⟨_, howner'⟩ := h.fired_owned other key hother
  cases howner.symm.trans howner'
  rfl

/-! ## Removing -/

theorem alarms_erase (q : Expiry) (key other : String) :
    (q.alarms.erase key)[other]? = if other = key then none else q.alarms[other]? := by
  rw [Std.HashMap.getElem?_erase]
  by_cases heq : key = other
  · simp [heq]
  · simp [heq, Ne.symm heq]

theorem remove_of_absent {q : Expiry} {key : String} (h : q.alarms[key]? = none) :
    q.remove key = (false, q) := by
  unfold remove
  rw [h]

theorem alarms_remove (q : Expiry) (key other : String) :
    (q.remove key).2.alarms[other]? = if other = key then none else q.alarms[other]? := by
  unfold remove
  cases halarm : q.alarms[key]? with
  | none =>
    dsimp only
    split
    · rename_i heq
      rw [heq, halarm]
    · rfl
  | some alarm => exact q.alarms_erase key other

/-- Removing a timer leaves the clockwork alone. -/
theorem remove_frame (q : Expiry) (key : String) :
    (q.remove key).2.timer.tick = q.timer.tick ∧
      (q.remove key).2.timer.driven = q.timer.driven ∧
      (q.remove key).2.timer.wheel.current = q.timer.wheel.current ∧
      (q.remove key).2.timer.wheel.nextId = q.timer.wheel.nextId := by
  unfold remove
  cases q.alarms[key]? <;> exact ⟨rfl, rfl, rfl, rfl⟩

/-- Of the tasks, removing a timer forgets the one of its key. -/
theorem Tidy.tasks_remove (h : q.Tidy fired) (key : String) (id : TimerId) :
    (q.remove key).2.timer.wheel.tasks[id]? =
      (q.timer.wheel.tasks[id]?).filter fun task => decide (task.payload ≠ key) := by
  have hkey (task : Task String) (htask : q.timer.wheel.tasks[id]? = some task) :
      task.payload = key ↔ ∃ alarm, q.alarms[key]? = some alarm ∧ alarm.id = id := by
    obtain ⟨owner, howner⟩ := h.owned id task htask
    constructor
    · rintro rfl
      exact ⟨_, howner, rfl⟩
    · rintro ⟨alarm, halarm, rfl⟩
      rcases h.recorded key alarm halarm with hin | ⟨deadline, hrecord⟩
      · rw [(h.fired_old alarm.id key hin).2] at htask
        cases htask
      · rw [htask] at hrecord
        cases hrecord
        rfl
  unfold remove
  cases halarm : q.alarms[key]? with
  | none =>
    dsimp only
    cases htask : q.timer.wheel.tasks[id]? with
    | none => rfl
    | some task =>
      have hne : task.payload ≠ key := by
        intro heq
        obtain ⟨alarm, hsome, _⟩ := (hkey task htask).mp heq
        rw [halarm] at hsome
        cases hsome
      simp [Option.filter, hne]
  | some alarm =>
    change (q.timer.wheel.cancel alarm.id).2.tasks[id]? = _
    rw [Wheel.tasks_cancel]
    cases htask : q.timer.wheel.tasks[id]? with
    | none => simp
    | some task =>
      have hiff := hkey task htask
      by_cases heq : id = alarm.id
      · have hpayload := hiff.mpr ⟨alarm, halarm, heq.symm⟩
        simp [heq, Option.filter, hpayload]
      · have hne : task.payload ≠ key := by
          intro hpayload
          obtain ⟨other, hother, hid⟩ := hiff.mp hpayload
          rw [halarm] at hother
          cases hother
          exact heq hid.symm
        simp [heq, Option.filter, hne]

theorem Tidy.remove (h : q.Tidy fired) (key : String) : (q.remove key).2.Tidy fired := by
  obtain ⟨htick, hdriven, _, hnextId⟩ := q.remove_frame key
  refine ⟨?_, hdriven.trans h.driven, ?_, ?_, ?_, ?_⟩
  · unfold Expiry.remove
    cases q.alarms[key]? with
    | none => exact h.placed
    | some alarm => exact h.placed.cancel alarm.id
  · rw [htick]
    exact h.tick_pos
  · intro other alarm halarm
    rw [alarms_remove] at halarm
    split at halarm
    · cases halarm
    · rename_i hne
      refine (h.recorded other alarm halarm).imp_right ?_
      rintro ⟨deadline, htask⟩
      refine ⟨deadline, ?_⟩
      rw [h.tasks_remove, htask]
      simp [Option.filter, hne]
  · intro id task htask
    rw [h.tasks_remove] at htask
    obtain ⟨hold, hne⟩ := Option.filter_eq_some_iff.mp htask
    obtain ⟨owner, howner⟩ := h.owned id task hold
    refine ⟨owner, ?_⟩
    rw [alarms_remove, if_neg (of_decide_eq_true hne)]
    exact howner
  · intro id other hin
    obtain ⟨hlt, hgone⟩ := h.fired_old id other hin
    rw [hnextId, h.tasks_remove, hgone]
    exact ⟨hlt, rfl⟩

theorem Sound.remove (h : q.Sound fired) {key : String} (hkey : key ∉ fired.map (·.2)) :
    (q.remove key).2.Sound fired where
  toTidy := h.toTidy.remove key
  fired_owned id other hin := by
    have hne : other ≠ key := ne_of_mem_of_not_mem (List.mem_map_of_mem hin) hkey
    rw [alarms_remove, if_neg hne]
    exact h.fired_owned id other hin
  fired_nodup := h.fired_nodup

theorem Tidy.waits_remove (h : q.Tidy fired) {key other : String} {owner : Serial} {deadline : Nat} :
    (q.remove key).2.Waits other owner deadline ↔ other ≠ key ∧ q.Waits other owner deadline := by
  unfold Waits
  constructor
  · rintro ⟨id, halarm, htask⟩
    rw [alarms_remove] at halarm
    rw [h.tasks_remove] at htask
    split at halarm
    · cases halarm
    · rename_i hne
      exact ⟨hne, id, halarm, (Option.filter_eq_some_iff.mp htask).1⟩
  · rintro ⟨hne, id, halarm, htask⟩
    refine ⟨id, ?_, ?_⟩
    · rw [alarms_remove, if_neg hne]
      exact halarm
    · rw [h.tasks_remove, htask]
      simp [Option.filter, hne]

/-- The timer of a key goes with its owner, and stays for any other entry. -/
theorem removeOwned_eq (q : Expiry) (key : String) (owner : Serial) :
    (q.removeOwned key owner).2 =
      if (q.alarms[key]?).map (·.owner) = some owner then (q.remove key).2 else q := by
  unfold removeOwned
  cases q.alarms[key]? with
  | none => rfl
  | some alarm =>
    dsimp only [Option.map_some]
    by_cases heq : alarm.owner = owner
    · rw [if_pos heq, if_pos (congrArg some heq)]
    · rw [if_neg heq, if_neg fun hsome => heq (Option.some.inj hsome)]

theorem Tidy.removeOwned (h : q.Tidy fired) (key : String) (owner : Serial) :
    (q.removeOwned key owner).2.Tidy fired := by
  rw [removeOwned_eq]
  split
  · exact h.remove key
  · exact h

theorem removeOwned_frame (q : Expiry) (key : String) (owner : Serial) :
    (q.removeOwned key owner).2.timer.tick = q.timer.tick ∧
      (q.removeOwned key owner).2.timer.wheel.current = q.timer.wheel.current := by
  obtain ⟨htick, _, hcurrent, _⟩ := q.remove_frame key
  rw [removeOwned_eq]
  split
  · exact ⟨htick, hcurrent⟩
  · exact ⟨rfl, rfl⟩

/-- What the removal of an entry's timer leaves on record. -/
theorem alarms_removeOwned (q : Expiry) (key : String) (owner : Serial) (other : String) :
    (q.removeOwned key owner).2.alarms[other]? =
      if other = key ∧ (q.alarms[key]?).map (·.owner) = some owner then none
      else q.alarms[other]? := by
  rw [removeOwned_eq]
  by_cases howner : (q.alarms[key]?).map (·.owner) = some owner
  · rw [if_pos howner, alarms_remove]
    simp [howner]
  · rw [if_neg howner, if_neg fun h => howner h.2]

/-! ## Setting -/

theorem replace_eq (q : Expiry) (clock : Clock) (key : String) (owner : Serial) (fireAt : Nat) :
    (q.replace clock key owner fireAt).2 =
      { timer := { (q.remove key).2.timer with
          wheel := ((q.remove key).2.timer.wheel.add ((q.remove key).2.timer.deadline clock.elapsed
            (.ofMillis (fireAt - clock.timestamp))) key).2 }
        alarms := (q.remove key).2.alarms.insert key
          { id := (q.remove key).2.timer.wheel.nextId, owner } } := rfl

theorem Tidy.replace (h : q.Tidy fired) (hlast : q.atLastTick = false) (clock : Clock)
    (key : String) (owner : Serial) (fireAt : Nat) :
    (q.replace clock key owner fireAt).2.Tidy fired := by
  have hremoved := h.remove key
  obtain ⟨_, _, hcurrent, _⟩ := q.remove_frame key
  have hnext : (q.remove key).2.timer.wheel.atLastTick = false := by
    unfold Wheel.atLastTick
    rw [hcurrent]
    exact hlast
  have hword := clampWord_le (((clock.elapsed.add (.ofMillis (fireAt - clock.timestamp))).wholeMillis
    + (q.remove key).2.timer.tick.wholeMillis - 1) / (q.remove key).2.timer.tick.wholeMillis)
  rw [replace_eq]
  generalize hr : (q.remove key).2 = r at hremoved hcurrent hnext hword
  have hvacant : r.alarms[key]? = none := by
    rw [← hr, alarms_remove, if_pos rfl]
  refine ⟨hremoved.placed.add key hword hnext, hremoved.driven, hremoved.tick_pos, ?_, ?_, ?_⟩
  · intro other alarm halarm
    change (r.alarms.insert key _)[other]? = some alarm at halarm
    rw [Std.HashMap.getElem?_insert] at halarm
    change _ ∨ ∃ deadline, (r.timer.wheel.add _ key).2.tasks[alarm.id]? = _
    rw [Wheel.tasks_add]
    split at halarm
    · rename_i heq
      cases halarm
      cases eq_of_beq heq
      rw [if_pos rfl]
      exact Or.inr ⟨_, rfl⟩
    · refine (hremoved.recorded other alarm halarm).imp_right ?_
      rintro ⟨deadline, htask⟩
      have hne := Nat.ne_of_lt (hremoved.placed.fresh alarm.id _ htask)
      rw [if_neg hne]
      exact ⟨deadline, htask⟩
  · intro id task htask
    change (r.timer.wheel.add _ key).2.tasks[id]? = some task at htask
    change ∃ owner', (r.alarms.insert key _)[task.payload]? = _
    rw [Wheel.tasks_add] at htask
    rw [Std.HashMap.getElem?_insert]
    split at htask
    · rename_i heq
      cases htask
      cases heq
      exact ⟨owner, by simp⟩
    · obtain ⟨owner', howner⟩ := hremoved.owned id task htask
      have hne : ¬ (key == task.payload) = true := by
        intro heq
        rw [← eq_of_beq heq, hvacant] at howner
        cases howner
      rw [if_neg hne]
      exact ⟨owner', howner⟩
  · intro id other hin
    obtain ⟨hlt, hgone⟩ := hremoved.fired_old id other hin
    refine ⟨Nat.lt_succ_of_lt hlt, ?_⟩
    change (r.timer.wheel.add _ key).2.tasks[id]? = none
    rw [Wheel.tasks_add, if_neg (Nat.ne_of_lt hlt)]
    exact hgone

theorem alarms_replace (q : Expiry) (clock : Clock) (key : String) (owner : Serial) (fireAt : Nat)
    (other : String) (hne : other ≠ key) :
    (q.replace clock key owner fireAt).2.alarms[other]? = q.alarms[other]? := by
  rw [replace_eq]
  change ((q.remove key).2.alarms.insert key _)[other]? = _
  rw [Std.HashMap.getElem?_insert, if_neg (by simpa using hne.symm), alarms_remove, if_neg hne]

theorem Sound.replace (h : q.Sound fired) (hlast : q.atLastTick = false) (clock : Clock)
    {key : String} (hkey : key ∉ fired.map (·.2)) (owner : Serial) (fireAt : Nat) :
    (q.replace clock key owner fireAt).2.Sound fired where
  toTidy := h.toTidy.replace hlast clock key owner fireAt
  fired_owned id other hin := by
    have hne : other ≠ key := ne_of_mem_of_not_mem (List.mem_map_of_mem hin) hkey
    rw [alarms_replace _ _ _ _ _ _ hne]
    exact h.fired_owned id other hin
  fired_nodup := h.fired_nodup

/-- Sets the timer of a key for a moment, or removes it if there is none. -/
def renew (q : Expiry) (clock : Clock) (key : String) (owner : Serial) : Option Nat → Expiry
  | none => (q.remove key).2
  | some moment => (q.replace clock key owner moment).2

theorem replace_frame (q : Expiry) (clock : Clock) (key : String) (owner : Serial) (fireAt : Nat) :
    (q.replace clock key owner fireAt).2.timer.tick = q.timer.tick ∧
      (q.replace clock key owner fireAt).2.timer.wheel.current = q.timer.wheel.current := by
  obtain ⟨htick, _, hcurrent, _⟩ := q.remove_frame key
  rw [replace_eq]
  generalize (q.remove key).2 = r at htick hcurrent ⊢
  exact ⟨htick, hcurrent⟩

theorem renew_frame (q : Expiry) (clock : Clock) (key : String) (owner : Serial)
    (moment : Option Nat) :
    (q.renew clock key owner moment).timer.tick = q.timer.tick ∧
      (q.renew clock key owner moment).timer.wheel.current = q.timer.wheel.current := by
  cases moment with
  | none =>
    obtain ⟨htick, _, hcurrent, _⟩ := q.remove_frame key
    exact ⟨htick, hcurrent⟩
  | some moment => exact q.replace_frame clock key owner moment

theorem Tidy.renew (h : q.Tidy fired) {moment : Option Nat}
    (hlast : moment ≠ none → q.atLastTick = false) (clock : Clock) (key : String)
    (owner : Serial) : (q.renew clock key owner moment).Tidy fired := by
  cases moment with
  | none => exact h.remove key
  | some moment => exact h.replace (hlast nofun) clock key owner moment

theorem alarms_renew_of_ne (q : Expiry) (clock : Clock) (key : String) (owner : Serial)
    (moment : Option Nat) {other : String} (hne : other ≠ key) :
    (q.renew clock key owner moment).alarms[other]? = q.alarms[other]? := by
  cases moment with
  | none => exact (q.alarms_remove key other).trans (if_neg hne)
  | some moment => exact q.alarms_replace clock key owner moment other hne

/-- A renewed timer is its new owner's. -/
theorem owner_of_renew {clock : Clock} {key : String} {owner : Serial} {moment : Option Nat}
    {alarm : Alarm} (h : (q.renew clock key owner moment).alarms[key]? = some alarm) :
    alarm.owner = owner := by
  cases moment with
  | none =>
    change (q.remove key).2.alarms[key]? = some alarm at h
    rw [alarms_remove, if_pos rfl] at h
    cases h
  | some moment =>
    change (q.replace clock key owner moment).2.alarms[key]? = some alarm at h
    rw [replace_eq] at h
    change ((q.remove key).2.alarms.insert key _)[key]? = some alarm at h
    rw [Std.HashMap.getElem?_insert_self] at h
    cases h
    rfl

/-- Setting a timer leaves those of the other keys waiting. -/
theorem Tidy.waits_replace_of_ne (h : q.Tidy fired) (clock : Clock) {key other : String}
    (owner : Serial) (fireAt : Nat) (hne : other ≠ key) {owner' : Serial} {deadline : Nat}
    (hwaits : q.Waits other owner' deadline) :
    (q.replace clock key owner fireAt).2.Waits other owner' deadline := by
  obtain ⟨id, halarm, htask⟩ := h.waits_remove.mpr ⟨hne, hwaits⟩
  refine ⟨id, ?_, ?_⟩
  · rw [alarms_replace q clock key owner fireAt other hne]
    rwa [alarms_remove, if_neg hne] at halarm
  · rw [replace_eq]
    change ((q.remove key).2.timer.wheel.add _ key).2.tasks[id]? = _
    have hlt := (h.remove key).placed.fresh id _ htask
    rw [Wheel.tasks_add, if_neg (Nat.ne_of_lt hlt)]
    exact htask

/-- A timer is set for a tick by which its moment has come, and for none before. -/
theorem Tidy.waits_replace (h : q.Tidy fired) {clock : Clock} (key : String) (owner : Serial)
    {fireAt : Nat} (hnow : clock.timestamp ≤ fireAt) (hword : fireAt ≤ maxWord)
    (hepoch : clock.sinceStart ≤ clock.timestamp) :
    ∃ deadline, (q.replace clock key owner fireAt).2.Waits key owner deadline ∧
      (q.replace clock key owner fireAt).2.Times (clock.timestamp - clock.sinceStart) fireAt
        deadline := by
  obtain ⟨htick, _, _, _⟩ := q.remove_frame key
  have hpos := h.tick_pos
  rw [← htick] at hpos
  rw [replace_eq]
  generalize (q.remove key).2 = r at hpos
  refine ⟨max (r.timer.deadline clock.elapsed (.ofMillis (fireAt - clock.timestamp)))
    (r.timer.wheel.current + 1), ⟨r.timer.wheel.nextId, ?_, ?_⟩, ?_⟩
  · change (r.alarms.insert key _)[key]? = _
    rw [Std.HashMap.getElem?_insert, if_pos (by simp)]
  · change (r.timer.wheel.add _ key).2.tasks[_]? = _
    rw [Wheel.tasks_add, if_pos rfl]
  · intro target hlt
    change r.timer.wheel.current < target at hlt
    have hiff := r.timer.deadline_le_iff hpos
      (by omega : clock.sinceStart + (fireAt - clock.timestamp) ≤ maxWord) target
    change max (r.timer.deadline (.ofMillis clock.sinceStart) _) _ ≤ target ↔
      fireAt ≤ clock.timestamp - clock.sinceStart + target * r.timer.tick.millis
    rw [Nat.max_le, hiff]
    generalize target * r.timer.tick.millis = passed
    omega

/-! ## Waking -/

theorem upTo_never {α : Type} (l : List (TimerId × α)) : Timer.upTo (fun _ => false) l = l := by
  induction l with
  | nil => rfl
  | cons a rest ih =>
    unfold Timer.upTo
    rw [if_neg Bool.false_ne_true, ih]

/-- What a wake-up comes down to: the wheel moves to the last whole tick, if that is ahead. -/
theorem wake_eq_of_driven (h : q.timer.driven = true) (clock : Clock) :
    q.wake clock =
      if q.timer.wheel.current < clock.elapsed.millis / q.timer.tick.millis then
        ((q.timer.wheel.advanceTo (clock.elapsed.millis / q.timer.tick.millis)).1,
          { q with timer := { q.timer with
              wheel :=
                (q.timer.wheel.advanceTo (clock.elapsed.millis / q.timer.tick.millis)).2 } })
      else ([], q) := by
  have hnone (due : List (TimerId × String)) : (due.any fun _ => false) = false := by simp
  unfold wake Timer.wake
  dsimp only
  rw [h, Bool.true_and]
  by_cases hlt : q.timer.wheel.current < clock.elapsed.millis / q.timer.tick.millis
  · rw [if_pos (decide_eq_true hlt), if_pos hlt]
    dsimp only
    rw [upTo_never, hnone]
    rfl
  · rw [if_neg fun heq => hlt (of_decide_eq_true heq), if_neg hlt]

theorem Tidy.wake (h : q.Tidy fired) (clock : Clock) :
    (q.wake clock).2.Tidy (fired ++ (q.wake clock).1) := by
  rw [wake_eq_of_driven h.driven]
  split
  · obtain ⟨hhands, hplaced, _⟩ := h.placed.advanceTo (clock.elapsed.millis / q.timer.tick.millis)
    generalize q.timer.wheel.advanceTo (clock.elapsed.millis / q.timer.tick.millis) = result
      at hhands hplaced
    obtain ⟨due, wheel⟩ := result
    have hleft {id : TimerId} {task : Task String} (htask : wheel.tasks[id]? = some task) :
        q.timer.wheel.tasks[id]? = some task := by
      rw [hhands.left] at htask
      split at htask
      · cases htask
      · exact htask
    refine ⟨hplaced, h.driven, h.tick_pos, ?_, fun id task htask => h.owned id task (hleft htask), ?_⟩
    · intro key alarm halarm
      rcases h.recorded key alarm halarm with hin | ⟨deadline, htask⟩
      · exact Or.inl (List.mem_append_left _ hin)
      · by_cases hout : alarm.id ∈ due.map (·.1)
        · left
          obtain ⟨⟨id, payload⟩, hin, rfl⟩ := List.mem_map.mp hout
          obtain ⟨task, hgiven, hpayload, _⟩ := hhands.given _ payload hin
          cases htask.symm.trans hgiven
          cases hpayload
          exact List.mem_append_right _ hin
        · right
          refine ⟨deadline, ?_⟩
          change wheel.tasks[alarm.id]? = _
          rw [hhands.left, if_neg hout]
          exact htask
    · intro id key hin
      change id < wheel.nextId ∧ wheel.tasks[id]? = none
      rw [hhands.nextId, hhands.left]
      rcases List.mem_append.mp hin with hold | hnew
      · obtain ⟨hlt, hgone⟩ := h.fired_old id key hold
        exact ⟨hlt, by rw [hgone, ite_self]⟩
      · obtain ⟨task, hgiven, _⟩ := hhands.given id key hnew
        exact ⟨h.placed.fresh id task hgiven, if_pos (List.mem_map_of_mem hnew)⟩
  · rw [List.append_nil]
    exact h

/-- The tasks that a wake-up fires had their timers on record. -/
theorem Tidy.sound_wake (h : q.Tidy []) (clock : Clock) :
    (q.wake clock).2.Sound (q.wake clock).1 where
  toTidy := h.wake clock
  fired_owned id key hin := by
    rw [wake_eq_of_driven h.driven] at hin ⊢
    split at hin
    · obtain ⟨hhands, _, _⟩ := h.placed.advanceTo (clock.elapsed.millis / q.timer.tick.millis)
      obtain ⟨task, hgiven, rfl, _⟩ := hhands.given id key hin
      rw [if_pos ‹_›]
      exact h.owned id task hgiven
    · cases hin
  fired_nodup := by
    rw [wake_eq_of_driven h.driven]
    split
    · obtain ⟨hhands, _, _⟩ := h.placed.advanceTo (clock.elapsed.millis / q.timer.tick.millis)
      exact hhands.nodup.of_map _
    · exact List.nodup_nil

/-- What an acknowledgement leaves on record: all timers but the very one that has fired. -/
theorem alarms_acknowledge (q : Expiry) (key : String) (id : TimerId) (other : String) :
    (q.acknowledge key id).2.alarms[other]? =
      if other = key ∧ (q.alarms[key]?).map (·.id) = some id then none else q.alarms[other]? := by
  unfold Expiry.acknowledge
  cases halarm : q.alarms[key]? with
  | none => simp
  | some alarm =>
    dsimp only [Option.map_some]
    by_cases hid : alarm.id = id
    · rw [if_pos hid]
      dsimp only
      rw [alarms_erase]
      simp [hid]
    · rw [if_neg hid, if_neg (by simp [hid])]

theorem acknowledge_frame (q : Expiry) (key : String) (id : TimerId) :
    (q.acknowledge key id).2.timer = q.timer := by
  unfold Expiry.acknowledge
  split
  · split <;> rfl
  · rfl

theorem acknowledge_fst (q : Expiry) (key : String) (id : TimerId) :
    (q.acknowledge key id).1 =
      ((q.alarms[key]?).filter fun alarm => decide (alarm.id = id)).map (·.owner) := by
  unfold Expiry.acknowledge
  cases q.alarms[key]? with
  | none => rfl
  | some alarm =>
    dsimp only
    rw [Option.filter_some]
    by_cases hid : alarm.id = id
    · rw [if_pos hid, if_pos (decide_eq_true hid)]
      rfl
    · rw [if_neg hid, if_neg (by simpa using hid)]
      rfl

theorem acknowledge_of_alarm {key : String} {id : TimerId} {owner : Serial}
    (h : q.alarms[key]? = some { id, owner }) : (q.acknowledge key id).1 = some owner := by
  rw [acknowledge_fst, h]
  simp

theorem Tidy.acknowledge {id : TimerId} {key : String} {rest : List (TimerId × String)}
    (h : q.Tidy ((id, key) :: rest)) : (q.acknowledge key id).2.Tidy rest := by
  have htimer := q.acknowledge_frame key id
  refine ⟨htimer ▸ h.placed, htimer ▸ h.driven, htimer ▸ h.tick_pos, ?_, ?_, ?_⟩
  · intro other alarm halarm
    rw [alarms_acknowledge] at halarm
    rw [htimer]
    split at halarm
    · cases halarm
    · rename_i hcond
      refine (h.recorded other alarm halarm).imp_left ?_
      intro hin
      refine (List.mem_cons.mp hin).resolve_left ?_
      intro heq
      cases heq
      exact hcond ⟨rfl, by rw [halarm]; rfl⟩
  · intro other task htask
    rw [htimer] at htask
    obtain ⟨owner, howner⟩ := h.owned other task htask
    refine ⟨owner, ?_⟩
    rw [alarms_acknowledge, if_neg]
    · exact howner
    · rintro ⟨heq, hid⟩
      rw [← heq, howner, Option.map_some, Option.some.injEq] at hid
      rw [show other = id from hid, (h.fired_old id key List.mem_cons_self).2] at htask
      cases htask
  · rw [htimer]
    exact fun other name hin => h.fired_old other name (List.mem_cons_of_mem _ hin)

/-- A timer that has fired leads to its owner, and is forgotten then. -/
theorem Sound.acknowledge {id : TimerId} {key : String} {rest : List (TimerId × String)}
    (h : q.Sound ((id, key) :: rest)) :
    ∃ owner, q.alarms[key]? = some { id, owner } ∧
      q.acknowledge key id = (some owner, { q with alarms := q.alarms.erase key }) ∧
      ({ q with alarms := q.alarms.erase key } : Expiry).Sound rest := by
  obtain ⟨owner, howner⟩ := h.fired_owned id key List.mem_cons_self
  have heq : q.acknowledge key id = (some owner, { q with alarms := q.alarms.erase key }) := by
    unfold Expiry.acknowledge
    rw [howner]
    dsimp only
    rw [if_pos rfl]
  have htidy := h.toTidy.acknowledge
  rw [heq] at htidy
  have hkeys := h.fired_keys
  refine ⟨owner, howner, heq, htidy, ?_, (List.nodup_cons.mp h.fired_nodup).2⟩
  intro other name hin
  have hne : name ≠ key :=
    ne_of_mem_of_not_mem (List.mem_map_of_mem hin) (List.nodup_cons.mp hkeys).1
  rw [alarms_erase, if_neg hne]
  exact h.fired_owned other name (List.mem_cons_of_mem _ hin)

theorem Tidy.clear (h : q.Tidy fired) : q.clear.Tidy fired := by
  refine ⟨h.placed.clear, h.driven, h.tick_pos, ?_, ?_, ?_⟩
  · intro key alarm halarm
    simp [Expiry.clear] at halarm
  · intro id task htask
    change q.timer.wheel.clear.tasks[id]? = some task at htask
    rw [Wheel.tasks_clear] at htask
    cases htask
  · exact fun id key hin => ⟨(h.fired_old id key hin).1, q.timer.wheel.tasks_clear id⟩

/-- What has fired is forgotten with all else that is on record. -/
theorem Tidy.sound_clear (h : q.Tidy fired) : q.clear.Sound [] := by
  obtain ⟨hplaced, hdriven, hpos, _, howned, _⟩ := h.clear
  refine Tidy.sound ⟨hplaced, hdriven, hpos, ?_, howned, nofun⟩
  intro key alarm halarm
  simp [Expiry.clear] at halarm

end Expiry

end TimedCache
