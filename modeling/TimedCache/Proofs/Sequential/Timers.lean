import TimedCache.Proofs.Expiry
import TimedCache.Proofs.Sequential.Reference

/-!
The timers of the records. Each record with a stamp has a timer, set for that record, which fires at
the first tick by which the record must be gone; no other key has one.
-/

namespace TimedCache

namespace Expiry

theorem Times.congr {q q' : Expiry} {epoch moment deadline : Nat} (h : q.Times epoch moment deadline)
    (htick : q'.timer.tick = q.timer.tick)
    (hcurrent : q.timer.wheel.current ≤ q'.timer.wheel.current) :
    q'.Times epoch moment deadline := by
  intro target hlt
  rw [htick]
  exact h target (by omega)

/-- The timers are those of some records, some of which have fired. -/
structure Rings {V : Type} (q : Expiry) (fired : List (TimerId × String)) (delay : Span)
    (epoch : Nat) (records : List (Record V)) : Prop where
  sound : q.Sound fired
  owned : ∀ (key : String) (alarm : Alarm), q.alarms[key]? = some alarm →
    ∃ r ∈ records, r.key = key ∧ r.serial = alarm.owner ∧ r.stamp ≠ none
  timed : ∀ r ∈ records, ∀ stamp, r.stamp = some stamp →
    (∃ deadline, q.Waits r.key r.serial deadline ∧
      q.Times epoch (satAdd stamp delay.millis) deadline) ∨
    ∃ id, (id, r.key) ∈ fired ∧ q.alarms[r.key]? = some { id, owner := r.serial }

variable {V : Type} {q : Expiry} {fired : List (TimerId × String)} {delay : Span} {epoch : Nat}
  {records records' : List (Record V)}

/-- Only the records with a stamp count. -/
theorem Rings.congr (h : q.Rings fired delay epoch records)
    (hmem : ∀ r : Record V, r.stamp ≠ none → (r ∈ records' ↔ r ∈ records)) :
    q.Rings fired delay epoch records' where
  sound := h.sound
  owned key alarm halarm := by
    obtain ⟨r, hr, hkey, howner, hsome⟩ := h.owned key alarm halarm
    exact ⟨r, (hmem r hsome).mpr hr, hkey, howner, hsome⟩
  timed r hr stamp hstamp := h.timed r ((hmem r (by simp [hstamp])).mp hr) stamp hstamp

/-- The timer of a key goes with the record. -/
theorem Rings.remove (h : q.Rings fired delay epoch records) {key : String}
    (hkey : key ∉ fired.map (·.2)) (hmem : ∀ r, r ∈ records' ↔ r ∈ records ∧ r.key ≠ key) :
    (q.remove key).2.Rings fired delay epoch records' where
  sound := h.sound.remove hkey
  owned other alarm halarm := by
    rw [alarms_remove] at halarm
    split at halarm
    · cases halarm
    · rename_i hne
      obtain ⟨r, hr, hkey, hrest⟩ := h.owned other alarm halarm
      exact ⟨r, (hmem r).mpr ⟨hr, hkey ▸ hne⟩, hkey, hrest⟩
  timed r hr stamp hstamp := by
    obtain ⟨hold, hne⟩ := (hmem r).mp hr
    obtain ⟨htick, _, hcurrent, _⟩ := q.remove_frame key
    rcases h.timed r hold stamp hstamp with ⟨deadline, hwaits, htimes⟩ | ⟨id, hin, halarm⟩
    · left
      refine ⟨deadline, h.sound.waits_remove.mpr ⟨hne, hwaits⟩, ?_⟩
      exact htimes.congr htick (Nat.le_of_eq hcurrent.symm)
    · right
      exact ⟨id, hin, (alarms_remove ..).trans ((if_neg hne).trans halarm)⟩

/-- An entry that goes takes its own timer along, whether or not it has a record. -/
theorem Rings.lost (h : q.Rings [] delay epoch records)
    (hkeyed : (records.map (·.key)).Nodup) {key : String} {s : Serial}
    (hsame : ∀ r ∈ records, r.serial = s → r.key = key) :
    (q.removeOwned key s).2.Rings [] delay epoch (Reference.without records s) := by
  rw [Expiry.removeOwned_eq]
  split
  · rename_i howner
    obtain ⟨alarm, halarm, hs⟩ := Option.map_eq_some_iff.mp howner
    obtain ⟨r, hr, hkey, hserial, _⟩ := h.owned key alarm halarm
    refine h.remove List.not_mem_nil fun other => ?_
    rw [Reference.mem_without]
    refine and_congr_right fun hother => not_congr ⟨hsame other hother, fun heq => ?_⟩
    rw [List.inj_on_of_nodup_map hkeyed hother hr (heq.trans hkey.symm)]
    exact hserial.trans hs
  · rename_i howner
    refine h.congr fun r hsome => ?_
    rw [Reference.mem_without]
    refine and_iff_left_of_imp fun hr hserial => howner ?_
    obtain ⟨stamp, hstamp⟩ := Option.ne_none_iff_exists'.mp hsome
    rcases h.timed r hr stamp hstamp with ⟨_, ⟨id, halarm, _⟩, _⟩ | ⟨_, hin, _⟩
    · rw [← hsame r hr hserial, halarm, Option.map_some, hserial]
    · cases hin

/-- A record that is stored gets the timer that it needs. -/
theorem Rings.renew (h : q.Rings fired delay epoch records) {clock : Clock} {r : Record V}
    (hkey : r.key ∉ fired.map (·.2)) (hlast : q.atLastTick = false)
    (hepoch : epoch = clock.timestamp - clock.sinceStart)
    (hstart : clock.sinceStart ≤ clock.timestamp)
    (hlater : ∀ stamp, r.stamp = some stamp → clock.timestamp ≤ satAdd stamp delay.millis)
    (hmem : ∀ r', r' ∈ records' ↔ r' = r ∨ (r' ∈ records ∧ r'.key ≠ r.key)) :
    (q.renew clock r.key r.serial (r.stamp.map fun stamp => satAdd stamp delay.millis)).Rings fired
      delay epoch records' := by
  have hself : r ∈ records' := (hmem r).mpr (Or.inl rfl)
  have hother {r' : Record V} (hr' : r' ∈ records) (hne : r'.key ≠ r.key) : r' ∈ records' :=
    (hmem r').mpr (Or.inr ⟨hr', hne⟩)
  cases hs : r.stamp with
  | none =>
    have hkept (r' : Record V) :
        r' ∈ records.filter (fun r' => r'.key != r.key) ↔ r' ∈ records ∧ r'.key ≠ r.key := by simp
    have hremoved := h.remove hkey hkept
    refine ⟨hremoved.sound, ?_, ?_⟩
    · intro key alarm halarm
      obtain ⟨r', hr', hrest⟩ := hremoved.owned key alarm halarm
      have hboth := (hkept r').mp hr'
      exact ⟨r', hother hboth.1 hboth.2, hrest⟩
    · intro r' hr' stamp hstamp'
      rcases (hmem r').mp hr' with rfl | ⟨hold, hne⟩
      · rw [hs] at hstamp'
        cases hstamp'
      · exact hremoved.timed r' ((hkept r').mpr ⟨hold, hne⟩) stamp hstamp'
  | some stamp =>
    obtain ⟨htick, hcurrent⟩ :=
      q.replace_frame clock r.key r.serial (satAdd stamp delay.millis)
    obtain ⟨deadline, hwaits, htimes⟩ := h.sound.waits_replace r.key r.serial
      (hlater stamp hs) (satAdd_le _ _) hstart
    refine ⟨h.sound.replace hlast clock hkey r.serial _, ?_, ?_⟩
    · intro key alarm halarm
      change (q.replace clock r.key r.serial _).2.alarms[key]? = some alarm at halarm
      rcases eq_or_ne key r.key with rfl | hne
      · obtain ⟨id, hid, _⟩ := hwaits
        rw [hid] at halarm
        cases halarm
        exact ⟨r, hself, rfl, rfl, by simp [hs]⟩
      · rw [alarms_replace _ _ _ _ _ _ hne] at halarm
        obtain ⟨r', hr', hkey, hrest⟩ := h.owned key alarm halarm
        exact ⟨r', hother hr' (hkey ▸ hne), hkey, hrest⟩
    · intro r' hr' stamp' hstamp'
      rcases (hmem r').mp hr' with rfl | ⟨hold, hne⟩
      · rw [hs] at hstamp'
        cases hstamp'
        refine Or.inl ⟨deadline, hwaits, ?_⟩
        rw [hepoch]
        exact htimes
      · rcases h.timed r' hold stamp' hstamp' with
          ⟨deadline', hwaits', htimes'⟩ | ⟨id, hin, halarm⟩
        · refine Or.inl
            ⟨deadline', h.sound.waits_replace_of_ne clock r.serial _ hne hwaits', ?_⟩
          exact htimes'.congr htick (Nat.le_of_eq hcurrent.symm)
        · exact Or.inr ⟨id, hin, (alarms_replace _ _ _ _ _ _ hne).trans halarm⟩

theorem Rings.clear (h : q.Rings fired delay epoch records) :
    q.clear.Rings [] delay epoch ([] : List (Record V)) := by
  refine ⟨h.sound.sound_clear, ?_, nofun⟩
  intro key alarm halarm
  simp [Expiry.clear] at halarm

/-- Whether the timer of a record fires or waits on, as the wheel moves on, goes by its moment. -/
theorem Rings.fires_or_waits (h : q.Rings [] delay epoch records) {wheel : Wheel String}
    {due : List (TimerId × String)} (hhands : q.timer.wheel.Hands wheel due)
    (hplaced : wheel.Placed) (hlater : q.timer.wheel.current < wheel.current) {r : Record V}
    (hr : r ∈ records) {stamp : Nat} (hstamp : r.stamp = some stamp) :
    ∃ id, q.alarms[r.key]? = some { id, owner := r.serial } ∧
      ((id, r.key) ∈ due ∧
          satAdd stamp delay.millis ≤ epoch + wheel.current * q.timer.tick.millis ∨
        id ∉ due.map (·.1) ∧
          ¬ satAdd stamp delay.millis ≤ epoch + wheel.current * q.timer.tick.millis ∧
          ∃ deadline, wheel.tasks[id]? = some { deadline, payload := r.key } ∧
            q.Times epoch (satAdd stamp delay.millis) deadline) := by
  obtain ⟨deadline, ⟨id, halarm, htask⟩, htimes⟩ | ⟨_, hin, _⟩ := h.timed r hr stamp hstamp
  · refine ⟨id, halarm, ?_⟩
    by_cases hout : id ∈ due.map (·.1)
    · left
      obtain ⟨⟨other, payload⟩, hin, hid⟩ := List.mem_map.mp hout
      change other = id at hid
      subst hid
      obtain ⟨task, hgiven, hpayload, hle⟩ := hhands.given other payload hin
      rw [htask] at hgiven
      cases hgiven
      cases (show r.key = payload from hpayload)
      exact ⟨hin, (htimes _ hlater).mp hle⟩
    · right
      have hleft : wheel.tasks[id]? = some { deadline, payload := r.key } := by
        rw [hhands.left, if_neg hout]
        exact htask
      refine ⟨hout, ?_, deadline, hleft, htimes⟩
      rw [← htimes _ hlater]
      exact Nat.not_le.mpr (hplaced.lt hleft)
  · cases hin

/-- When time passes a tick, the timers fire of the records that must be gone by the last tick. -/
theorem Rings.wake (h : q.Rings [] delay epoch records)
    (hkeys : (records.map (·.key)).Nodup) {clock : Clock} (helapsed : clock.sinceStart ≤ maxWord) :
    (q.wake clock).2.Rings (q.wake clock).1 delay epoch records ∧
      (q.wake clock).2.timer.tick = q.timer.tick ∧
      (q.wake clock).2.timer.wheel.current =
        max q.timer.wheel.current (clock.sinceStart / q.timer.tick.millis) ∧
      (∀ r ∈ records, r.key ∈ (q.wake clock).1.map (·.2) ↔
        q.timer.wheel.current < clock.sinceStart / q.timer.tick.millis ∧
          r.goneBy (epoch + clock.sinceStart / q.timer.tick.millis * q.timer.tick.millis) delay) := by
  have hsound := h.sound.sound_wake clock
  rw [wake_eq_of_driven h.sound.driven] at hsound ⊢
  rw [show clock.elapsed.millis = clock.sinceStart from Span.millis_ofMillis helapsed] at hsound ⊢
  split
  · rename_i hlt
    rw [if_pos hlt] at hsound
    obtain ⟨hhands, hplaced, hcurrent⟩ :=
      h.sound.placed.advanceTo (clock.sinceStart / q.timer.tick.millis)
    generalize q.timer.wheel.advanceTo (clock.sinceStart / q.timer.tick.millis) = result
      at hsound hhands hplaced hcurrent ⊢
    obtain ⟨due, wheel⟩ := result
    generalize clock.sinceStart / q.timer.tick.millis = target at hlt hcurrent ⊢
    dsimp only at hsound hhands hplaced hcurrent ⊢
    have hreached : wheel.current = target := by omega
    subst hreached
    refine ⟨⟨hsound, h.owned, ?_⟩, rfl, hcurrent, ?_⟩
    · intro r hr stamp hstamp
      obtain ⟨id, halarm, ⟨hin, _⟩ | ⟨_, _, deadline, htask, htimes⟩⟩ :=
        h.fires_or_waits hhands hplaced hlt hr hstamp
      · right
        exact ⟨id, hin, halarm⟩
      · left
        refine ⟨deadline, ⟨id, halarm, htask⟩, ?_⟩
        exact htimes.congr rfl (Nat.le_of_lt hlt)
    · intro r hr
      unfold Record.goneBy
      constructor
      · intro hfired
        obtain ⟨⟨id, _⟩, hin, rfl⟩ := List.mem_map.mp hfired
        obtain ⟨owner, howner⟩ := hsound.fired_owned id r.key hin
        obtain ⟨r', hr', hkey, _, hsome⟩ := h.owned r.key _ howner
        cases List.inj_on_of_nodup_map hkeys hr' hr hkey
        obtain ⟨stamp, hstamp⟩ := Option.ne_none_iff_exists'.mp hsome
        obtain ⟨id', halarm, ⟨_, hle⟩ | ⟨hout, _⟩⟩ :=
          h.fires_or_waits hhands hplaced hlt hr hstamp
        · exact ⟨hlt, by simp [hstamp, hle]⟩
        · rw [howner] at halarm
          cases halarm
          exact absurd (List.mem_map_of_mem hin) hout
      · rintro ⟨_, hgone⟩
        rw [Option.any_eq_true] at hgone
        obtain ⟨stamp, hstamp, hle⟩ := hgone
        obtain ⟨id, _, ⟨hin, _⟩ | ⟨_, hlate, _⟩⟩ :=
          h.fires_or_waits hhands hplaced hlt hr hstamp
        · exact List.mem_map_of_mem hin
        · exact absurd (of_decide_eq_true hle) hlate
  · rename_i hlt
    rw [if_neg hlt] at hsound
    have hstays := Nat.max_eq_left (Nat.le_of_not_lt hlt)
    refine ⟨⟨hsound, h.owned, ?_⟩, rfl, hstays.symm, ?_⟩
    · intro r hr stamp hstamp
      rcases h.timed r hr stamp hstamp with hwaits | ⟨_, hin, _⟩
      · exact Or.inl hwaits
      · cases hin
    · intro r _
      constructor
      · intro hin
        cases hin
      · rintro ⟨hpast, _⟩
        exact absurd hpast hlt

/-- A timer that has fired leads to its record, and the others are left. -/
theorem Rings.acknowledge {id : TimerId} {key : String} {rest : List (TimerId × String)}
    (h : q.Rings ((id, key) :: rest) delay epoch records) :
    ∃ r ∈ records, r.key = key ∧ (q.acknowledge key id).1 = some r.serial ∧
      (q.acknowledge key id).2.Rings rest delay epoch
        (records.filter fun other => decide (other.key ≠ key)) := by
  obtain ⟨owner, howner, hresult, hsound⟩ := h.sound.acknowledge
  obtain ⟨r, hr, hkey, rfl, _⟩ := h.owned key _ howner
  rw [hresult]
  refine ⟨r, hr, hkey, rfl, hsound, ?_, ?_⟩
  · intro other alarm halarm
    change (q.alarms.erase key)[other]? = some alarm at halarm
    rw [alarms_erase] at halarm
    split at halarm
    · cases halarm
    · rename_i hne
      obtain ⟨r', hr', hkey', hrest⟩ := h.owned other alarm halarm
      exact ⟨r', List.mem_filter.mpr ⟨hr', decide_eq_true (hkey' ▸ hne)⟩, hkey', hrest⟩
  · intro r' hr' stamp' hstamp'
    obtain ⟨hold, hne⟩ := List.mem_filter.mp hr'
    have hkept : (q.alarms.erase key)[r'.key]? = q.alarms[r'.key]? := by
      rw [alarms_erase, if_neg (of_decide_eq_true hne)]
    rcases h.timed r' hold stamp' hstamp' with
      ⟨deadline, ⟨id', halarm, htask⟩, htimes⟩ | ⟨id', hin, halarm⟩
    · exact Or.inl ⟨deadline, ⟨id', hkept.trans halarm, htask⟩, htimes⟩
    · refine Or.inr ⟨id', (List.mem_cons.mp hin).resolve_left ?_, hkept.trans halarm⟩
      intro heq
      cases heq
      exact of_decide_eq_true hne rfl

end Expiry

end TimedCache
