import TimedCache.Proofs.Sequential.Matching

/-!
The course of time. The timers that fire were set for ends up to the last tick, and the worker
follows them up one by one: each rings in the machine.
-/

namespace TimedCache

open Reference (without)

/-- The worker has followed up timers that had fired, but for some. -/
structure Drained {V : Type} (c c' : Cache V) (left : List (TimerId × String)) : Prop
    extends ({ c with fired := left } : Cache V).Beside c' where
  tick : c'.expiry.timer.tick = c.expiry.timer.tick
  current : c'.expiry.timer.wheel.current = c.expiry.timer.wheel.current
  created : c'.nextSerial = c.nextSerial
  frees : c.recency.Frees c'.recency
  grows : c.recency.Grows c'.recency

theorem Drained.trans {V : Type} {c c' c'' : Cache V} {left left' : List (TimerId × String)}
    (hfirst : Drained c c' left) (hsecond : Drained c' c'' left') : Drained c c'' left' where
  options := hsecond.options.trans hfirst.options
  clock := hsecond.clock.trans hfirst.clock
  writes := hsecond.writes.trans hfirst.writes
  reads := hsecond.reads.trans hfirst.reads
  fired := hsecond.fired
  paused := hsecond.paused.trans hfirst.paused
  stint := hsecond.stint.trans hfirst.stint
  tick := hsecond.tick.trans hfirst.tick
  current := hsecond.current.trans hfirst.current
  created := hsecond.created.trans hfirst.created
  frees := hfirst.frees.trans hsecond.frees
  grows := hfirst.grows.trans hsecond.grows

namespace Aground

variable {V : Type} {o : Options V} {c : Cache V} {m : Aground V} {r : Record V} {id : TimerId}
  {key : String} {rest : List (TimerId × String)}

/-- The worker has followed up timers, and they have rung in the machine. -/
structure Follows (o : Options V) (c c' : Cache V) (rung : List (Event V) × Aground V)
    (left : List (TimerId × String)) : Prop extends Drained c c' left where
  stands : Stands o c' rung.2 left
  log : c'.log.toList.Perm (c.log.toList ++ rung.1)

theorem mem_restamp {records : List (Record V)} (hkeyed : (records.map (·.key)).Nodup)
    (hr : r ∈ records) (stamp : Option Nat) {r' : Record V} :
    r' ∈ records.map (fun other => if other.key = r.key then { other with stamp } else other) ↔
      r' = { r with stamp } ∨ (r' ∈ records ∧ r'.key ≠ r.key) := by
  rw [List.mem_map]
  constructor
  · rintro ⟨other, hother, rfl⟩
    split
    · rename_i heq
      rw [List.inj_on_of_nodup_map hkeyed hother hr heq]
      exact Or.inl rfl
    · exact Or.inr ⟨hother, ‹_›⟩
  · rintro (rfl | ⟨hin, hne⟩)
    · exact ⟨r, hr, if_pos rfl⟩
    · exact ⟨r', hin, if_neg hne⟩

/-- A timer that leads to a record which stays leaves only the timers to be looked after. -/
theorem Stands.restamp (h : Stands o c m ((id, r.key) :: rest)) (hr : r ∈ m.records)
    {stamp : Option Nat} (hafter : m.afterwards o r = some { r with stamp })
    (hleft : ∀ found ∈ m.stored, found.serial = r.serial →
      found.goneBy m.clock.timestamp o.expireDelay = false) {expiry : Expiry}
    (htick : expiry.timer.tick = c.expiry.timer.tick)
    (hcurrent : expiry.timer.wheel.current = c.expiry.timer.wheel.current)
    (hrings : expiry.Rings rest o.expireDelay (c.clock.timestamp - c.clock.sinceStart)
      (m.records.map fun other =>
        if other.key = r.key then { other with stamp } else other)) :
    Follows o c { c with expiry, fired := rest } (m.ring o fun other => decide (other.key = r.key))
      rest := by
  rw [ring_own_of_left h.lists.keyed hr hafter hleft]
  have hnames : ∀ other : Record V,
      (if other.key = r.key then { other with stamp } else other).serial = other.serial ∧
        (if other.key = r.key then { other with stamp } else other).key = other.key := by
    intro other
    split <;> exact ⟨rfl, rfl⟩
  exact ⟨⟨⟨rfl, rfl, rfl, rfl, rfl, rfl, rfl⟩, htick, hcurrent, rfl, .refl _, .refl _⟩,
    ⟨h.finds, h.lists.map hnames, hrings, h.clock⟩, by simp⟩

section Expire

variable (h : Stands o c m ((id, r.key) :: rest)) (hr : r ∈ m.records)
  (howner : (c.expiry.acknowledge r.key id).1 = some r.serial)
  (hothers : (c.expiry.acknowledge r.key id).2.Rings rest o.expireDelay
    (c.clock.timestamp - c.clock.sinceStart)
    (m.records.filter fun other => decide (other.key ≠ r.key)))
include h hr howner hothers

/-- The timer of a record that readers do not find, or find without an end, is forgotten. -/
theorem Stands.expire_of_spent
    (hspent : ∀ found ∈ m.stored, found.serial = r.serial → found.stamp = none) :
    Follows o c (({ c with fired := rest } : Cache V).expire id r.key)
      (m.ring o fun other => decide (other.key = r.key)) rest := by
  have hshown (hslot : c.contents.occupant? r.key = some r.serial) :
      ∃ found, c.contents.Shows found ∧ found.serial = r.serial ∧ found.stamp = none := by
    obtain ⟨found, hfound, _, hserial⟩ := (h.finds.occupant_iff _ _).mp hslot
    exact ⟨found, h.finds.shown found hfound, hserial, hspent found hfound hserial⟩
  have hafter : m.afterwards o r = some { r with stamp := none } := by
    by_cases hfound : ∃ found ∈ m.stored, found.serial = r.serial
    · obtain ⟨found, hfound, hserial⟩ := hfound
      rw [afterwards_of_found h.finds.serials hfound hserial, Record.goneBy,
        hspent found hfound hserial]
      rfl
    · exact afterwards_of_lost fun found hin hserial => hfound ⟨found, hin, hserial⟩
  have hstay (found : Record V) (hfound : found ∈ m.stored) (hserial : found.serial = r.serial) :
      found.goneBy m.clock.timestamp o.expireDelay = false := by
    rw [Record.goneBy, hspent found hfound hserial]
    rfl
  have htimer := c.expiry.acknowledge_frame r.key id
  rw [Cache.expire_of_spent (c := { c with fired := rest }) howner hshown]
  refine h.restamp hr hafter hstay (congrArg (·.tick) htimer) (congrArg (·.wheel.current) htimer) ?_
  refine hothers.congr fun r' hsome => ?_
  rw [mem_restamp h.lists.keyed hr, List.mem_filter, decide_eq_true_iff]
  refine or_iff_right ?_
  rintro rfl
  exact hsome rfl

variable {found : Record V} (hfound : found ∈ m.stored) (hkey : found.key = r.key)
  (hserial : found.serial = r.serial) {stamp : Nat} (hstamp : found.stamp = some stamp)
include hfound hkey hserial hstamp

/-- The timer of a record that readers find with an end to come is set for that end. -/
theorem Stands.expire_of_later (hoptions : c.options = o) (hlast : c.expiry.atLastTick = false)
    (hstart : c.clock.sinceStart ≤ c.clock.timestamp)
    (hlater : ¬ satAdd stamp o.expireDelay.millis ≤ c.clock.timestamp) :
    Follows o c (({ c with fired := rest } : Cache V).expire id r.key)
      (m.ring o fun other => decide (other.key = r.key)) rest := by
  subst hoptions
  have hgone : found.goneBy m.clock.timestamp c.options.expireDelay = false := by
    rw [Record.goneBy, hstamp, h.clock]
    exact decide_eq_false hlater
  have hafter : m.afterwards c.options r = some { r with stamp := some stamp } := by
    rw [afterwards_of_found h.finds.serials hfound hserial, hgone, if_neg Bool.false_ne_true, hstamp]
  have hstay (other : Record V) (hother : other ∈ m.stored) (heq : other.serial = r.serial) :
      other.goneBy m.clock.timestamp c.options.expireDelay = false := by
    rw [List.inj_on_of_nodup_map h.finds.serials hother hfound (heq.trans hserial.symm)]
    exact hgone
  have htimer := c.expiry.acknowledge_frame r.key id
  have hslot := h.finds.occupant hfound
  have hshown := h.finds.shown found hfound
  have hout : r.key ∉ rest.map (·.2) := (List.nodup_cons.mp h.rings.sound.fired_keys).1
  have hlast' : (c.expiry.acknowledge r.key id).2.atLastTick = false := by
    unfold Expiry.atLastTick
    rw [htimer]
    exact hlast
  obtain ⟨htick, hcurrent⟩ := (c.expiry.acknowledge r.key id).2.renew_frame c.clock r.key r.serial
    (some (satAdd stamp c.options.expireDelay.millis))
  have howner' : (c.expiry.acknowledge found.key id).1 = some found.serial := by
    rw [hkey, hserial]
    exact howner
  have hexpire := Cache.expire_of_later (c := { c with fired := rest }) howner' hslot hshown hstamp
    hlater hlast
  rw [hkey, hserial, hstamp] at hexpire
  rw [hexpire]
  refine h.restamp hr hafter hstay (htick.trans (congrArg (·.tick) htimer))
    (hcurrent.trans (congrArg (·.wheel.current) htimer)) ?_
  refine hothers.renew (r := { r with stamp := some stamp }) hout hlast' rfl hstart ?_ ?_
  · rintro _ ⟨⟩
    exact Nat.le_of_not_le hlater
  · intro r'
    rw [mem_restamp h.lists.keyed hr, List.mem_filter, decide_eq_true_iff, and_assoc, and_self]

/-- The timer of a record that must be gone removes it from the readers and from the list. -/
theorem Stands.expire_of_due (hoptions : c.options = o) (htame : o.Tame)
    (hend : satAdd stamp o.expireDelay.millis ≤ c.clock.timestamp) :
    Follows o c (({ c with fired := rest } : Cache V).expire id r.key)
      (m.ring o fun other => decide (other.key = r.key)) rest := by
  subst hoptions
  have hgone : found.goneBy m.clock.timestamp c.options.expireDelay = true := by
    rw [Record.goneBy, hstamp, h.clock]
    exact decide_eq_true hend
  have htimer := c.expiry.acknowledge_frame r.key id
  have hvacated := Recency.remove_vacated h.finds.wellKeyed c.recency r.serial
  obtain ⟨hlinked, hlists⟩ := h.lists.remove h.finds.wellKeyed (fun _ => rfl) r.serial
  rw [if_pos (List.mem_map_of_mem hr)] at hlinked
  obtain ⟨order, hkeeps⟩ := h.lists.chained
  have howner' : (c.expiry.acknowledge found.key id).1 = some found.serial := by
    rw [hkey, hserial]
    exact howner
  rw [← hserial] at hlinked
  have hexpire := Cache.expire_of_due (c := { c with fired := rest }) howner'
    (h.finds.occupant hfound) (h.finds.shown found hfound) h.finds.wellKeyed hlinked hstamp hend htame
  rw [hkey, hserial] at hexpire
  rw [hexpire, ring_own_of_gone h.lists.keyed (fun other hother =>
    Contents.serial_eq_iff h.lists.keyed h.lists.named hr hother) hr h.finds.serials hfound hserial
      hgone, hserial]
  refine ⟨⟨⟨rfl, rfl, rfl, rfl, rfl, rfl, rfl⟩, congrArg (·.tick) htimer,
    congrArg (·.wheel.current) htimer, hvacated.size_entries, hkeeps.frees_remove r.serial,
    Recency.grows_remove c.recency c.contents r.serial⟩,
    ⟨h.finds.lost hvacated, hlists, hothers.congr fun other _ => ?_, h.clock⟩, by simp⟩
  rw [h.lists.mem_without hr, List.mem_filter, decide_eq_true_iff]

end Expire

/-- The worker follows up a timer that has fired. -/
theorem Stands.expire (h : Stands o c m ((id, key) :: rest)) (hoptions : c.options = o)
    (htame : o.Tame) (hlast : c.expiry.atLastTick = false)
    (hstart : c.clock.sinceStart ≤ c.clock.timestamp) :
    Follows o c (({ c with fired := rest } : Cache V).expire id key)
      (m.ring o fun r => decide (r.key = key)) rest := by
  obtain ⟨r, hr, rfl, howner, hothers⟩ := h.rings.acknowledge
  by_cases hspent : ∀ found ∈ m.stored, found.serial = r.serial → found.stamp = none
  · exact h.expire_of_spent hr howner hothers hspent
  · push Not at hspent
    obtain ⟨found, hfound, hserial, hsome⟩ := hspent
    obtain ⟨stamp, hstamp⟩ := Option.ne_none_iff_exists'.mp hsome
    have hkey : found.key = r.key := by
      have hname := h.finds.named hfound
      rw [hserial, h.lists.named r hr] at hname
      exact (Option.some.inj hname).symm
    by_cases hend : satAdd stamp o.expireDelay.millis ≤ c.clock.timestamp
    · exact h.expire_of_due hr howner hothers hfound hkey hserial hstamp hoptions htame hend
    · exact h.expire_of_later hr howner hothers hfound hkey hserial hstamp hoptions hlast hstart hend

/-- The worker follows up every timer that has fired. -/
theorem Stands.workSteps {fired : List (TimerId × String)} (h : Stands o c m fired)
    (hfired : c.fired = fired) (hwrites : c.writes.items = []) (hbatches : c.reads.sink.items = [])
    (hoptions : c.options = o) (htame : o.Tame) (hlast : c.expiry.atLastTick = false)
    (hstart : c.clock.sinceStart ≤ c.clock.timestamp) :
    Follows o c (c.workSteps fired.length)
      (m.ring o fun r => decide (r.key ∈ fired.map (·.2))) [] := by
  induction fired generalizing c m with
  | nil =>
    have hnone : m.ring o (fun r => decide (r.key ∈ ([] : List (TimerId × String)).map (·.2))) =
        ([], m) := by
      rw [← ring_none (o := o)]
      exact ring_congr fun r _ => by simp
    rw [hnone]
    exact ⟨⟨⟨rfl, rfl, rfl, rfl, hfired, rfl, rfl⟩, rfl, rfl, rfl, .refl _, .refl _⟩, h, by
      simp [Cache.workSteps]⟩
  | cons task rest ih =>
    obtain ⟨id, key⟩ := task
    have hwork : c.work = ({ c with fired := rest } : Cache V).expire id key := by
      rw [Cache.work_eq_workFired hwrites hbatches]
      unfold Cache.workFired
      rw [hfired]
    have hfirst := h.expire hoptions htame hlast hstart
    rw [← hwork] at hfirst
    have hrest := ih hfirst.stands hfirst.fired (by rw [hfirst.writes, hwrites])
      (by rw [hfirst.reads, hbatches]) (hfirst.options.trans hoptions) (by
        unfold Expiry.atLastTick Timer.atLastTick Wheel.atLastTick at hlast ⊢
        rw [hfirst.current]
        exact hlast) (by rw [hfirst.clock]; exact hstart)
    have hout : key ∉ rest.map (·.2) := (List.nodup_cons.mp h.rings.sound.fired_keys).1
    have hapart (r : Record V) (stamp : Option Nat) (hsame : decide (r.key = key) = true) :
        decide (({ r with stamp } : Record V).key ∈ rest.map (·.2)) = false := by
      rw [decide_eq_true_iff] at hsame
      rw [decide_eq_false_iff_not]
      exact hsame ▸ hout
    obtain ⟨hlast, htold⟩ := ring_ring (o := o) (p := fun r => decide (r.key = key))
      (q := fun r => decide (r.key ∈ rest.map (·.2))) h.lists.serials hapart
    have hall : (m.ring o fun r => decide (r.key ∈ ((id, key) :: rest).map (·.2))) =
        m.ring o fun r => decide (r.key = key) || decide (r.key ∈ rest.map (·.2)) := by
      refine ring_congr fun r _ => ?_
      rw [List.map_cons, Bool.eq_iff_iff]
      simp
    rw [List.length_cons, Cache.workSteps, hall]
    refine ⟨hfirst.toDrained.trans hrest.toDrained, ?_, ?_⟩
    · rw [← hlast]
      exact hrest.stands
    · refine (hrest.log.trans (hfirst.log.append_right _)).trans ?_
      rw [List.append_assoc]
      exact htold.append_left _

end Aground

/-- The time that has passed since the start of the wheel is known in whole milliseconds. -/
theorem Cache.Timely.epoch_advance {V : Type} {c : Cache V} (h : c.Timely) {ms : Nat}
    (hearly : (c.clock.advance ms).unix < 2 ^ 63) :
    (c.clock.advance ms).timestamp - (c.clock.advance ms).sinceStart =
        c.clock.timestamp - c.clock.sinceStart ∧
      (c.clock.advance ms).sinceStart ≤ maxWord ∧
      c.clock.timestamp - c.clock.sinceStart + (c.clock.advance ms).sinceStart ≤
        (c.clock.advance ms).timestamp := by
  have hstarted := h.started
  have hunix := h.early
  have hstart : (c.clock.advance ms).sinceStart = c.clock.sinceStart + ms := rfl
  have hlater : (c.clock.advance ms).unix = c.clock.unix + ms := rfl
  have hnow : c.clock.timestamp = c.clock.unix.toNat := by
    apply clampWord_of_le
    unfold maxWord
    omega
  have hthen : (c.clock.advance ms).timestamp = (c.clock.unix + ms).toNat := by
    apply clampWord_of_le
    unfold maxWord
    omega
  have hword : (c.clock.advance ms).sinceStart ≤ maxWord := by
    unfold maxWord
    omega
  exact ⟨by omega, hword, by omega⟩

namespace Serves

variable {V : Type} {o : Options V} {c c' : Cache V} {now : Clock} {made : Nat}

/-- When time passes, the worker follows up the timers that fire, and nothing else. -/
theorem settle_advance (h : Serves o c now made) (ms : Nat) :
    (c.advance ms).fired = (c.expiry.wake (c.clock.advance ms)).1 ∧
      (c.advance ms).settle =
        (c.advance ms).workSteps (c.expiry.wake (c.clock.advance ms)).1.length := by
  have hfired : (c.advance ms).fired = (c.expiry.wake (c.clock.advance ms)).1 := by
    change c.fired ++ (c.expiry.wake (c.clock.advance ms)).1 = _
    rw [h.idle.fired, List.nil_append]
  refine ⟨hfired, ?_⟩
  have hbacklog : (c.advance ms).backlog = (c.expiry.wake (c.clock.advance ms)).1.length := by
    unfold Cache.backlog
    rw [hfired, show (c.advance ms).writes.items = [] from h.idle.writes,
      show (c.advance ms).reads.sink.items = [] from h.idle.batches]
    simp
  unfold Cache.settle Cache.catchUp
  rw [show (c.advance ms).paused = false from h.idle.awake, if_neg Bool.false_ne_true, hbacklog]

/-- Apart from the timers that fire, there is nothing to do when time has passed. -/
theorem advance (h : Serves o c now made) {ms : Nat}
    (htick : (c.expiry.wake (c.clock.advance ms)).2.timer.tick = c.expiry.timer.tick)
    (hcurrent : (c.expiry.wake (c.clock.advance ms)).2.timer.wheel.current =
      max c.expiry.timer.wheel.current
        ((c.clock.advance ms).sinceStart / c.expiry.timer.tick.millis))
    (hearly : (c.clock.advance ms).unix < 2 ^ 63) :
    Serves o { c.advance ms with fired := [] } (c.clock.advance ms) made where
  options := h.options
  idle := ⟨h.idle.writes, h.idle.batches, rfl, h.idle.alive, h.idle.awake, h.idle.patient⟩
  timely := by
    have hstarted := h.timely.started
    have hle : c.clock.sinceStart / c.expiry.timer.tick.millis ≤
        (c.clock.sinceStart + ms) / c.expiry.timer.tick.millis := Nat.div_le_div_right (by omega)
    refine ⟨htick.trans h.timely.tick, ?_, ?_, hearly⟩
    · change (c.expiry.wake (c.clock.advance ms)).2.timer.wheel.current =
        (c.clock.sinceStart + ms) / (c.expiry.wake (c.clock.advance ms)).2.timer.tick.millis
      rw [hcurrent, htick, h.timely.current]
      exact Nat.max_eq_right hle
    · change ((c.clock.sinceStart + ms : Nat) : Int) ≤ c.clock.unix + ms
      omega
  clock := rfl
  created := h.created
  room := h.room
  capacity := h.capacity

end Serves

namespace Aground.Matches

variable {V : Type} {o : Options V} {c : Cache V} {m : Aground V}

/-- When time passes, the timers ring in the machine that fire. -/
theorem ring_eq_advance (h : Matches o c m) (ms : Nat) {rings : Record V → Bool}
    (hrings : ∀ r ∈ m.records, rings r = true ↔
      c.expiry.timer.wheel.current < (c.clock.sinceStart + ms) / c.expiry.timer.tick.millis ∧
        r.goneBy (c.clock.timestamp - c.clock.sinceStart +
          (c.clock.sinceStart + ms) / c.expiry.timer.tick.millis * c.expiry.timer.tick.millis)
            o.expireDelay)
    (hepoch : (c.clock.advance ms).timestamp - (c.clock.advance ms).sinceStart =
      c.clock.timestamp - c.clock.sinceStart) :
    m.advance o ms = ({ m with clock := c.clock.advance ms } : Aground V).ring o rings := by
  have htick := h.timely.tick
  rw [h.options] at htick
  have hcurrent := h.timely.current
  unfold Aground.advance
  dsimp only
  rw [← htick, h.toServes.clock, ← hcurrent, hepoch]
  change (if c.expiry.timer.wheel.current <
    (c.clock.sinceStart + ms) / c.expiry.timer.tick.millis then _ else _) = _
  split
  · rename_i hpast
    refine ring_congr fun r hr => ?_
    rw [Bool.eq_iff_iff, hrings r hr]
    exact (and_iff_right hpast).symm
  · rename_i hwithin
    refine (ring_none (o := o)).symm.trans (ring_congr fun r hr => ?_)
    rw [eq_comm, Bool.eq_false_iff, ne_eq, hrings r hr]
    exact fun hboth => hwithin hboth.1

theorem advance (h : Matches o c m) (htame : o.Tame) (ms : Nat)
    (hearly : (c.clock.advance ms).unix < 2 ^ 63) :
    Goes o c (c.advance ms).settle m (m.advance o ms).2 (m.advance o ms).1 := by
  obtain ⟨hepoch, hword, _⟩ := h.timely.epoch_advance hearly
  obtain ⟨hrings, htick, hcurrent, hfires⟩ := h.rings.wake h.lists.keyed hword
  obtain ⟨hfired, hsettle⟩ := h.toServes.settle_advance ms
  rw [← hepoch] at hrings
  have hstands : Stands o (c.advance ms) { m with clock := c.clock.advance ms }
      (c.expiry.wake (c.clock.advance ms)).1 := ⟨h.finds, h.lists, hrings, rfl⟩
  have hserves := h.toServes.advance htick hcurrent hearly
  have hfollows := hstands.workSteps hfired h.idle.writes h.idle.batches h.options htame
    hserves.timely.atLastTick hserves.timely.sinceStart_le
  have hadvance := h.ring_eq_advance ms (fun r hr => decide_eq_true_iff.trans (hfires r hr)) hepoch
  rw [hsettle, hadvance]
  exact ⟨⟨hfollows.reads, Nat.le_refl _, hfollows.frees.turns _, hfollows.log⟩,
    { hserves.beside hfollows.toBeside hfollows.tick hfollows.current
        (hserves.created.trans hfollows.created.symm) hfollows.grows, hfollows.stands with }, rfl⟩

end Aground.Matches

end TimedCache
