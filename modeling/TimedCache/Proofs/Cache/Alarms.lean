import TimedCache.Proofs.Cache.Outgrown
import TimedCache.Proofs.Cache.Overdue
import TimedCache.Proofs.Cache.Rejections
import TimedCache.Proofs.Expiry.Punctual
import TimedCache.Proofs.Expiry.Requests

/-!
Which timers are on record. A timer is set for the end of an entry that has a slot, and goes when the
worker takes the slot away; a caller who takes it away owes the worker the deletion, which removes
the timer. An entry that gets another end, or none, awaits its operation. So when the worker has
nothing to do, the timers on record are those of the entries with an end.
-/

namespace TimedCache

namespace Cache

variable {V : Type} {c : Cache V} {s : Serial} {key : String}

/-! ## New timers -/

/-- The second timers have a new one for a key: it was set for the end of the entry that has the
slot. -/
structure Fresh (c : Cache V) (q q' : Expiry) (key : String) (alarm : Alarm) : Prop where
  slot : c.contents.occupant? key = some alarm.owner
  numbered : q.timer.wheel.nextId ≤ alarm.id ∧ alarm.id < q'.timer.wheel.nextId
  timed : ∃ moment, c.endOf? alarm.owner = some moment ∧
    ∀ task, q'.timer.wheel.tasks[alarm.id]? = some task → task.deadline ≤
      q.dueTick c.clock.epoch moment (c.clock.sinceStart / q.timer.tick.millis)

theorem Fresh.of_later {q r q' : Expiry} {alarm : Alarm} (h : c.Fresh q r key alarm)
    (hnextId : r.timer.wheel.nextId ≤ q'.timer.wheel.nextId)
    (htasks : ∀ task, q'.timer.wheel.tasks[alarm.id]? = some task →
      r.timer.wheel.tasks[alarm.id]? = some task) : c.Fresh q q' key alarm := by
  obtain ⟨hlow, hhigh⟩ := h.numbered
  obtain ⟨moment, hmoment, hdue⟩ := h.timed
  exact ⟨h.slot, ⟨hlow, hhigh.trans_le hnextId⟩, moment, hmoment,
    fun task htask => hdue task (htasks task htask)⟩

theorem Drift.nextId_le {q q' : Expiry} (h : Drift c q q') :
    q.timer.wheel.nextId ≤ q'.timer.wheel.nextId := by
  induction h with
  | refl => exact Nat.le_refl _
  | renew _ _ _ ih => exact ih.trans (Expiry.nextId_le_renew _ _ _ _ _)
  | disown _ _ key ih => exact ih.trans (Expiry.nextId_removeOwned _ key _).ge

/-- A timer on record was on record before, with the same deadline, or is new. -/
theorem Drift.origin {q q' : Expiry} {fired : List (TimerId × String)} (h : Drift c q q')
    (hq : q.Tidy fired)
    (hcurrent : q.timer.wheel.current ≤ c.clock.reached q.timer.tick.millis)
    {alarm : Alarm} (halarm : q'.alarms[key]? = some alarm) :
    (q.alarms[key]? = some alarm ∧ ∀ task, q'.timer.wheel.tasks[alarm.id]? = some task →
      q.timer.wheel.tasks[alarm.id]? = some task) ∨ c.Fresh q q' key alarm := by
  induction h with
  | refl => exact Or.inl ⟨halarm, fun _ => id⟩
  | @renew r other t hr ht hlast ih =>
    have htidy := hr.tidy hq
    by_cases heq : key = other
    · subst heq
      right
      rw [Expiry.alarms_renew_self] at halarm
      obtain ⟨moment, hmoment, rfl⟩ := Option.map_eq_some_iff.mp halarm
      obtain ⟨htick, hsame⟩ := hr.frame
      rw [← hsame, ← htick] at hcurrent
      refine ⟨ht, ⟨hr.nextId_le, ?_⟩, moment, hmoment, fun task htask => ?_⟩
      · rw [hmoment]
        exact r.nextId_lt_renew c.clock key t moment
      · rw [hmoment] at htask
        have hdue := htidy.deadline_replace hcurrent (endOf?_le hmoment) htask
        unfold Expiry.dueTick at hdue ⊢
        rwa [htick] at hdue
    · rw [Expiry.alarms_renew_of_ne _ _ _ _ _ heq] at halarm
      have htasks (task : Task String)
          (htask : (r.renew c.clock other t (c.endOf? t)).timer.wheel.tasks[alarm.id]? =
            some task) : r.timer.wheel.tasks[alarm.id]? = some task :=
        htidy.task_of_renew (htidy.id_lt halarm) htask
      rcases ih halarm with ⟨hold, hkept⟩ | hfresh
      · exact Or.inl ⟨hold, fun task htask => hkept task (htasks task htask)⟩
      · exact Or.inr (hfresh.of_later (r.nextId_le_renew c.clock other t _) htasks)
  | @disown r t hr _ other ih =>
    have htasks (task : Task String)
        (htask : (r.removeOwned other t).2.timer.wheel.tasks[alarm.id]? = some task) :
        r.timer.wheel.tasks[alarm.id]? = some task := (hr.tidy hq).task_of_removeOwned htask
    rw [Expiry.alarms_removeOwned] at halarm
    split at halarm
    · cases halarm
    · rcases ih halarm with ⟨hold, hkept⟩ | hfresh
      · exact Or.inl ⟨hold, fun task htask => hkept task (htasks task htask)⟩
      · exact Or.inr (hfresh.of_later (r.nextId_removeOwned other t).ge htasks)

/-- An entry that is stored and keeps its slot has a new timer, if it has any. -/
theorem nextId_le_of_upsert {order : List Recency.Spot}
    (hkeeps : c.recency.Keeps c.contents order) (hkeyed : c.contents.WellKeyed)
    (hfits : (c.added s).recency.Fitting) (halive : (c.upsert s).isClosed = false)
    (hs : (c.upsert s).contents.occupant? key = some s) {alarm : Alarm}
    (halarm : (c.upsert s).expiry.alarms[key]? = some alarm) :
    c.expiry.timer.wheel.nextId ≤ alarm.id := by
  rw [(c.upsert_aside s).contents] at hs
  obtain ⟨_, hretimed⟩ := retimed_of_kept hkeeps hkeyed hfits hs
  have hnewest (h : (c.retimed s).alarms[key]? = some alarm) :
      c.expiry.timer.wheel.nextId ≤ alarm.id := by
    rw [hretimed, Expiry.alarms_renew_self] at h
    obtain ⟨_, _, rfl⟩ := Option.map_eq_some_iff.mp h
    exact Nat.le_refl _
  rw [(expiry_upsert halive).2] at halarm
  cases hvictim : (c.recency.add c.contents s).1 with
  | none =>
    rw [hvictim] at halarm
    exact hnewest halarm
  | some victim =>
    rw [hvictim] at halarm
    dsimp only at halarm
    unfold disowned at halarm
    split at halarm
    · rw [Expiry.alarms_removeOwned] at halarm
      split at halarm
      · cases halarm
      · exact hnewest halarm
    · exact hnewest halarm

/-! ## Timers go with the slots -/

/-- The entry whose timer stays when another is linked keeps its slot. -/
theorem occupant_of_upsert (hkeyed : c.contents.WellKeyed)
    (halive : (c.upsert s).isClosed = false) {alarm : Alarm}
    (halarm : (c.upsert s).expiry.alarms[key]? = some alarm)
    (hslot : c.contents.occupant? key = some alarm.owner) :
    (c.upsert s).contents.occupant? key = some alarm.owner := by
  have hvacated := (Recency.add_vacated hkeyed c.recency s).1
  rw [(c.upsert_aside s).contents]
  refine (hvacated.occupant_iff key alarm.owner).mpr ⟨hslot, fun hvictim => ?_⟩
  have hkeyOf : (c.added s).contents.keyOf alarm.owner = some key :=
    (congrFun hvacated.keyOf_eq _).trans (hkeyed.keyOf_of_occupant hslot)
  rw [(expiry_upsert halive).2, hvictim] at halarm
  dsimp only [disowned] at halarm
  rw [hkeyOf] at halarm
  dsimp only at halarm
  rw [Expiry.alarms_removeOwned] at halarm
  split at halarm
  · cases halarm
  · rename_i hkept
    exact hkept ⟨rfl, congrArg (Option.map (·.owner)) halarm⟩

/-- The entry whose timer stays when a fired timer is followed up keeps its slot. -/
theorem occupant_of_expire {id : TimerId} {other : String} (hkeyed : c.contents.WellKeyed)
    (halive : (c.expire id other).isClosed = false) {alarm : Alarm}
    (halarm : (c.expire id other).expiry.alarms[key]? = some alarm)
    (hslot : c.contents.occupant? key = some alarm.owner) :
    (c.expire id other).contents.occupant? key = some alarm.owner := by
  rw [(c.expire_aside id other).contents]
  cases hfallen : c.fallen? id other with
  | none => exact hslot
  | some t =>
    refine ((Recency.remove_vacated hkeyed c.recency t).occupant_iff key alarm.owner).mpr
      ⟨hslot, fun heq => ?_⟩
    cases heq
    obtain rfl := hkeyed.key_unique hslot (occupant_of_fallen hfallen).1
    have hlate : c.early? id key = none := by
      rw [Option.eq_none_iff_forall_ne_some]
      intro u hearly
      rw [(fallen?_of_early hearly).1] at hfallen
      cases hfallen
    have hacknowledged := (Option.filter_eq_some_iff.mp hfallen).1
    rw [Expiry.acknowledge_fst] at hacknowledged
    obtain ⟨known, hknown, _⟩ := Option.map_eq_some_iff.mp hacknowledged
    obtain ⟨hrecord, hid⟩ := Option.filter_eq_some_iff.mp hknown
    rw [(expiry_expire hkeyed halive).1, hlate] at halarm
    dsimp only at halarm
    rw [Expiry.alarms_acknowledge, hrecord, Option.map_some, of_decide_eq_true hid,
      if_pos ⟨rfl, rfl⟩] at halarm
    cases halarm

/-- A timer was set for the end of its entry, at one of some ticks. -/
def SetFor (c : Cache V) (sets : List Nat) (alarm : Alarm) : Prop :=
  ∃ moment, c.endOf? alarm.owner = some moment ∧
    ∀ task, c.expiry.timer.wheel.tasks[alarm.id]? = some task → ∃ set ∈ sets,
      task.deadline ≤ c.expiry.dueTick c.clock.epoch moment set

theorem SetFor.of_later {c' : Cache V} {sets : List Nat} {alarm : Alarm} (h : c.SetFor sets alarm)
    (hend : c'.endOf? alarm.owner = c.endOf? alarm.owner)
    (htasks : ∀ task, c'.expiry.timer.wheel.tasks[alarm.id]? = some task →
      c.expiry.timer.wheel.tasks[alarm.id]? = some task)
    (htick : c'.expiry.timer.tick = c.expiry.timer.tick) (hepoch : c'.clock.epoch = c.clock.epoch)
    (more : List Nat) :
    c'.SetFor (sets ++ more) alarm := by
  obtain ⟨moment, hmoment, hdue⟩ := h
  refine ⟨moment, hend.trans hmoment, fun task htask => ?_⟩
  obtain ⟨set, hset, hle⟩ := hdue task (htasks task htask)
  refine ⟨set, List.mem_append_left _ hset, ?_⟩
  unfold Expiry.dueTick at hle ⊢
  rwa [htick, hepoch]

end Cache

namespace System

variable {V : Type} {s : System V}

/-! ## No timer without its entry -/

/-- The entry whose timer stays when the worker takes a write up keeps its slot. -/
theorem Coherent.occupant_of_workWrite (h : s.Coherent)
    (halive : s.cache.workWrite.isClosed = false) {key : String} {alarm : Alarm}
    (halarm : s.cache.workWrite.expiry.alarms[key]? = some alarm)
    (hslot : s.cache.contents.occupant? key = some alarm.owner) :
    s.cache.workWrite.contents.occupant? key = some alarm.owner := by
  cases hitems : s.cache.writes.items with
  | nil =>
    rw [Cache.workWrite_of_nil hitems]
    exact hslot
  | cons op rest =>
    rw [Cache.workWrite_of_cons hitems] at halive halarm ⊢
    have hkeyed : (s.cache.received rest).contents.WellKeyed := h.keyed
    cases op with
    | set t => exact Cache.occupant_of_upsert hkeyed halive halarm hslot
    | update t => exact Cache.occupant_of_upsert hkeyed halive halarm hslot
    | delete t =>
      -- The entry of a deletion has lost its slot before the deletion was queued.
      change ((s.cache.received rest).bury t).contents.occupant? key = some alarm.owner
      have hgone := h.deleted_gone t (hitems ▸ List.mem_cons_self)
      rw [((s.cache.received rest).bury_aside t).contents]
      refine ((Recency.remove_vacated hkeyed s.cache.recency t).occupant_iff key _).mpr
        ⟨hslot, fun heq => hgone.2 key ?_⟩
      rw [Option.some.inj heq]
      exact hslot
    | clear => simp [Cache.apply, Cache.wipe, Expiry.clear] at halarm
    | flush => exact hslot

/-- The entry whose timer stays when the worker takes a fired timer up keeps its slot. -/
theorem Coherent.occupant_of_workFired (h : s.Coherent)
    (halive : s.cache.workFired.isClosed = false) {key : String} {alarm : Alarm}
    (halarm : s.cache.workFired.expiry.alarms[key]? = some alarm)
    (hslot : s.cache.contents.occupant? key = some alarm.owner) :
    s.cache.workFired.contents.occupant? key = some alarm.owner := by
  cases hfired : s.cache.fired with
  | nil =>
    rw [Cache.workFired_of_nil hfired]
    exact hslot
  | cons task rest =>
    rw [Cache.workFired_of_cons hfired] at halive halarm ⊢
    exact Cache.occupant_of_expire (c := { s.cache with fired := rest }) h.keyed halive halarm hslot

/-- The entry whose timer stays keeps its slot, but for a caller who deletes it, of which the worker
may never hear. -/
theorem Working.slot_of_alarm (h : s.Working) {move : Move V}
    (halive : (s.step move).cache.isClosed = false) {key : String} {alarm : Alarm}
    (halarm : (s.step move).cache.expiry.alarms[key]? = some alarm)
    (hslot : s.cache.contents.occupant? key = some alarm.owner) :
    (s.step move).cache.contents.occupant? key = some alarm.owner ∨
      alarm.owner ∈ (s.step move).owed ∨ s.unheard? move = some alarm.owner := by
  have hcoherent := h.arranged.coherent
  have htake {other : String} (hne : other ≠ key) :
      (s.cache.contents.takeKey other).2.occupant? key = some alarm.owner := by
    rw [Contents.occupant?_takeKey, if_neg hne]
    exact hslot
  cases move with
  | store other value ttl wait =>
    exact Or.inl (Cache.lodge_keeps hcoherent.keyed other value ttl wait hslot)
  | strandSet other value ttl =>
    rw [step_strandSet]
    exact Or.inl (Cache.written_keeps hslot value ttl)
  | detach other =>
    rw [step_detach]
    rcases eq_or_ne other key with rfl | hne
    · right
      left
      exact mem_owed.mpr (Or.inl (List.mem_append_left _ (Option.mem_toList.mpr hslot)))
    · exact Or.inl (htake hne)
  | strandDelete other =>
    rw [step_strandDelete]
    rcases eq_or_ne other key with rfl | hne
    · exact Or.inr (Or.inr hslot)
    · exact Or.inl (htake hne)
  | workWrite => exact Or.inl (hcoherent.occupant_of_workWrite halive halarm hslot)
  | workRead =>
    obtain ⟨reads, places, heq⟩ := s.cache.workRead_frame
    left
    change s.cache.workRead.contents.occupant? key = some alarm.owner
    rw [heq]
    exact hslot
  | workFired => exact Or.inl (hcoherent.occupant_of_workFired halive halarm hslot)
  | _ =>
    left
    rw [(s.step_of_distant rfl).1]
    exact hslot

/-- The owner of each timer on record has the slot of the key, is owed to the worker or is among
those of whose deletion the worker never hears. -/
def Claimed (s : System V) (unheard : List Serial) : Prop :=
  ∀ (key : String) (alarm : Alarm), s.cache.expiry.alarms[key]? = some alarm →
    s.cache.contents.occupant? key = some alarm.owner ∨ alarm.owner ∈ s.owed ∨
      alarm.owner ∈ unheard

theorem Claimed.step {unheard : List Serial} (hclaimed : s.Claimed unheard) (h : s.Working)
    {move : Move V} (halive : (s.step move).cache.isClosed = false) :
    (s.step move).Claimed (unheard ++ (s.unheard? move).toList) := by
  intro key alarm halarm
  have hnever (hnow : s.unheard? move = some alarm.owner) :
      alarm.owner ∈ unheard ++ (s.unheard? move).toList :=
    List.mem_append_right _ (Option.mem_toList.mpr hnow)
  rcases h.arranged.coherent.step_alarm halive halarm with hold | hslot
  · rcases hclaimed key alarm hold with hslot | howed | hin
    · exact (h.slot_of_alarm halive halarm hslot).imp_right (Or.imp_right hnever)
    · rcases s.owed_step halive howed with hafter | hnow | hnow
      · exact Or.inr (Or.inl hafter)
      · exact Or.inr (Or.inr (hnever hnow))
      · exact absurd rfl ((h.laid_of_buried halive hnow).untimed key alarm halarm)
    · exact Or.inr (Or.inr (List.mem_append_left _ hin))
  · exact Or.inl hslot

theorem Claimed.run {unheard : List Serial} (hclaimed : s.Claimed unheard) (h : s.Working)
    {moves : List (Move V)} (halive : (s.run moves).cache.isClosed = false) :
    (s.run moves).Claimed (unheard ++ s.along unheard? moves) := by
  induction moves generalizing s unheard with
  | nil =>
    unfold along
    rw [List.append_nil]
    exact hclaimed
  | cons move rest ih =>
    have hnext := ((s.step move).run_onward rest).2 halive
    have hrest := ih (hclaimed.step h hnext) (h.step hnext) halive
    rw [List.append_assoc] at hrest
    exact hrest

/-! ## When the timers were set -/

/-- The tick that the clock has reached when a move sets a timer. The wheel may lag behind it. -/
def setAt? (id : TimerId) (s : System V) (move : Move V) : Option Nat :=
  if s.cache.expiry.timer.wheel.nextId ≤ id ∧
      id < (s.step move).cache.expiry.timer.wheel.nextId then
    some (s.cache.clock.sinceStart / s.cache.expiry.timer.tick.millis)
  else none

/-- The timer of an entry that has a slot was set for the entry's end, at one of the ticks known of
it, unless the entry awaits an operation. -/
def Dated (s : System V) (sets : TimerId → List Nat) : Prop :=
  s.cache.recency.Fitting → ∀ (key : String) (alarm : Alarm),
    s.cache.expiry.alarms[key]? = some alarm →
    s.cache.contents.occupant? key = some alarm.owner → s.cache.awaits alarm.owner = false →
      s.cache.SetFor (sets alarm.id) alarm

variable {sets : TimerId → List Nat}

/-- What a caller does sets no timer, and no deadline. -/
theorem Working.caller_timers (h : s.Working) {move : Move V} (hcaller : move.ofWorker = false)
    (halive : (s.step move).cache.isClosed = false) :
    (s.step move).cache.expiry.alarms = s.cache.expiry.alarms ∧
      (s.step move).cache.expiry.timer.tick = s.cache.expiry.timer.tick ∧
      ∀ (id : TimerId) task, (s.step move).cache.expiry.timer.wheel.tasks[id]? = some task →
        s.cache.expiry.timer.wheel.tasks[id]? = some task := by
  cases htimed : move.timed with
  | false =>
    rw [(s.step_of_not_timed htimed).2.1]
    exact ⟨rfl, rfl, fun _ _ => id⟩
  | true =>
    cases move with
    | lapse ms steady => exact ⟨rfl, rfl, fun _ _ => id⟩
    | wake =>
      obtain ⟨halarms, htick, _, htasks⟩ := h.clockwork.tidy.wake_frame s.cache.clock
      refine ⟨halarms, htick, fun id task htask => ?_⟩
      exact (Option.filter_eq_some_iff.mp ((htasks id).symm.trans htask)).1
    | halt => cases halive
    | workWrite | workRead | workFired => cases hcaller
    | _ => cases htimed

/-- An entry that awaits no operation after what a caller did, to whom no write was refused and who
did not fail, has the slot and the end that it had, and awaited none before. -/
theorem Working.steady_of_caller (h : s.Working) {move : Move V} (hcaller : move.ofWorker = false)
    (htaken : s.rejects move = false) (hstrands : move.strands = false)
    (halive : (s.step move).cache.isClosed = false)
    {key : String} {t : Serial} (ht : (s.step move).cache.contents.occupant? key = some t)
    (hcalm : (s.step move).cache.awaits t = false) :
    s.cache.contents.occupant? key = some t ∧
      (s.step move).cache.endOf? t = s.cache.endOf? t ∧ s.cache.awaits t = false := by
  have hkeyed := h.arranged.coherent.keyed
  obtain ⟨_, more, hitems⟩ := alive_of_caller hcaller halive
  have hbefore : s.cache.awaits t = false := by
    rw [Bool.eq_false_iff]
    intro hawaits
    rw [Cache.awaits_of_prefix hitems hawaits] at hcalm
    cases hcalm
  cases move with
  | store other value ttl wait =>
    have haccepts : s.cache.accepts wait = true := by simpa [rejects] using htaken
    rcases Cache.lodge_occupant hkeyed other value ttl wait ht with hold | hqueued
    · refine ⟨hold, ?_, hbefore⟩
      refine (Cache.endOf?_lodge hkeyed other value ttl wait hold).trans (if_neg ?_)
      rintro rfl
      change (s.cache.lodge key value ttl wait).2.awaits t = false at hcalm
      rw [Cache.lodge_of_occupant hold, if_pos haccepts] at hcalm
      simp [Cache.awaits, Cache.queued, WriteOp.upserted?] at hcalm
    · have hawaits : (s.cache.lodge other value ttl wait).2.awaits t = true :=
        Cache.awaits_iff.mpr ⟨.set t, hqueued, rfl⟩
      cases hawaits.symm.trans hcalm
  | strandSet | strandDelete => cases hstrands
  | workWrite | workRead | workFired => cases hcaller
  | _ =>
    obtain ⟨hslot, hend⟩ := h.arranged.coherent.step_occupant ht rfl
    exact ⟨hslot, hend, hbefore⟩

/-- An entry awaits no operation any more once the worker has come to it, and to no other. -/
theorem upserted_of_awaits {move : Move V} (hworker : move.ofWorker = true)
    (halive : (s.step move).cache.isClosed = false) {t : Serial}
    (hbefore : s.cache.awaits t = true) (hafter : (s.step move).cache.awaits t = false) :
    move = .workWrite ∧ ∃ rest, (s.step .workWrite).cache = (s.cache.received rest).upsert t := by
  obtain ⟨op, hop, hself⟩ := Cache.awaits_iff.mp hbefore
  have hgone : op ∉ (s.step move).cache.writes.items := by
    intro hin
    rw [Cache.awaits_iff.mpr ⟨op, hin, hself⟩] at hafter
    cases hafter
  rw [writes_of_worker hworker halive] at hgone
  cases move with
  | workWrite =>
    refine ⟨rfl, ?_⟩
    rw [if_pos rfl] at hgone
    cases hitems : s.cache.writes.items with
    | nil =>
      rw [hitems] at hop
      cases hop
    | cons first rest =>
      rw [hitems] at hop hgone
      cases (List.mem_cons.mp hop).resolve_right hgone
      refine ⟨rest, (Cache.workWrite_of_cons hitems).trans ?_⟩
      cases op <;> cases hself <;> rfl
  | workRead | workFired => exact absurd hop hgone
  | _ => cases hworker

/-- A timer that an entry had before the worker came to its operation is replaced. -/
theorem Working.awaits_of_kept (h : s.Working) {move : Move V} (hworker : move.ofWorker = true)
    (halive : (s.step move).cache.isClosed = false)
    (hfits : (s.step move).cache.recency.Fitting) {key : String} {alarm : Alarm}
    (hold : s.cache.expiry.alarms[key]? = some alarm)
    (halarm : (s.step move).cache.expiry.alarms[key]? = some alarm)
    (hslot : (s.step move).cache.contents.occupant? key = some alarm.owner)
    (hcalm : (s.step move).cache.awaits alarm.owner = false) :
    s.cache.awaits alarm.owner = false := by
  rw [Bool.eq_false_iff]
  intro hawaits
  obtain ⟨rfl, rest, hupsert⟩ := upserted_of_awaits hworker halive hawaits hcalm
  obtain ⟨order, hkeeps⟩ := h.arranged.keeps ((s.step_onward .workWrite).1.fitting hfits)
  rw [hupsert] at halive halarm hslot hfits
  rw [((s.cache.received rest).upsert_aside _).recency] at hfits
  have hnew := Cache.nextId_le_of_upsert (c := s.cache.received rest) hkeeps
    h.arranged.coherent.keyed hfits halive hslot halarm
  exact absurd (h.clockwork.tidy.id_lt hold) (Nat.not_lt.mpr hnew)

/-- Taking a message numbers no timer. -/
theorem nextId_taken (s : System V) (move : Move V) :
    (s.cache.taken move).timer.wheel.nextId = s.cache.expiry.timer.wheel.nextId := by
  unfold Cache.taken
  cases move with
  | workWrite =>
    dsimp only
    split <;> rfl
  | workFired =>
    dsimp only
    split
    · rw [Expiry.acknowledge_frame]
    · rfl
  | _ => rfl

theorem Dated.of_worker (hdated : s.Dated sets) (h : s.Working) {move : Move V}
    (hworker : move.ofWorker = true) (halive : (s.step move).cache.isClosed = false) :
    (s.step move).Dated fun id => sets id ++ (setAt? id s move).toList := by
  intro hfits key alarm halarm hslot hcalm
  have hcoherent := h.arranged.coherent
  have hdrift := worker_drift hcoherent.keyed hworker halive
  obtain ⟨htidy, htick, hcurrent⟩ := clockwork_taken h.clockwork hworker halive
  have hclock := (worker_frame hworker halive).1
  obtain ⟨htick', _⟩ := hdrift.frame
  have hstands : (s.cache.taken move).timer.wheel.current ≤
      (s.step move).cache.clock.reached (s.cache.taken move).timer.tick.millis := by
    rw [hcurrent, htick, hclock]
    exact h.clockwork.current
  rcases hdrift.origin htidy hstands halarm with ⟨htaken, htasks⟩ | hfresh
  · obtain ⟨hold, htimer⟩ := alarm_of_taken htaken
    have hstored : move.storedKey? = none := by cases move <;> first | rfl | cases hworker
    obtain ⟨hbefore, hend⟩ := hcoherent.step_occupant hslot hstored
    refine (hdated ((s.step_onward move).1.fitting hfits) key alarm hold hbefore
      (h.awaits_of_kept hworker halive hfits hold halarm hslot hcalm)).of_later hend ?_
      (htick'.trans htick) (congrArg Clock.epoch hclock) _
    rw [← htimer]
    exact htasks
  · obtain ⟨moment, hmoment, hdue⟩ := hfresh.timed
    refine ⟨moment, hmoment, fun task htask => ?_⟩
    refine ⟨s.cache.clock.sinceStart / s.cache.expiry.timer.tick.millis,
      List.mem_append_right _ ?_, ?_⟩
    · have hnumbered := hfresh.numbered
      rw [s.nextId_taken] at hnumbered
      exact Option.mem_toList.mpr (if_pos hnumbered)
    · have hle := hdue task htask
      unfold Expiry.dueTick at hle ⊢
      rwa [htick', ← htick, ← hclock]

theorem Dated.of_caller (hdated : s.Dated sets) (h : s.Working) {move : Move V}
    (hcaller : move.ofWorker = false) (hstep : move.inStep = true) (hstrands : move.strands = false)
    (htaken : s.rejects move = false) (halive : (s.step move).cache.isClosed = false) :
    (s.step move).Dated fun id => sets id ++ (setAt? id s move).toList := by
  intro hfits key alarm halarm hslot hcalm
  obtain ⟨halarms, htick, htasks⟩ := h.caller_timers hcaller halive
  obtain ⟨hbefore, hend, hcalm'⟩ := h.steady_of_caller hcaller htaken hstrands halive hslot hcalm
  rw [halarms] at halarm
  exact (hdated ((s.step_onward move).1.fitting hfits) key alarm halarm hbefore hcalm').of_later hend
    (htasks alarm.id) htick (s.epoch_step hstep halive) _

theorem Dated.step (hdated : s.Dated sets) (h : s.Working) {move : Move V}
    (hstep : move.inStep = true) (hstrands : move.strands = false)
    (htaken : s.rejects move = false) (halive : (s.step move).cache.isClosed = false) :
    (s.step move).Dated fun id => sets id ++ (setAt? id s move).toList := by
  cases hworker : move.ofWorker with
  | true => exact hdated.of_worker h hworker halive
  | false => exact hdated.of_caller h hworker hstep hstrands htaken halive

theorem Dated.run (hdated : s.Dated sets) (h : s.Working) {moves : List (Move V)}
    (hsteps : ∀ move ∈ moves, move.inStep = true) (hstrands : ∀ move ∈ moves, move.strands = false)
    (hrejected : (s.run moves).cache.counters.rejectedWrites = 0)
    (halive : (s.run moves).cache.isClosed = false) :
    (s.run moves).Dated fun id => sets id ++ s.along (setAt? id) moves := by
  induction moves generalizing s sets with
  | nil =>
    have hsame : (fun id => sets id ++ s.along (setAt? id) []) = sets := by
      funext id
      exact List.append_nil _
    rw [hsame]
    exact hdated
  | cons move rest ih =>
    have hnext := ((s.step move).run_onward rest).2 halive
    have hrun : (s.run ([] ++ move :: rest)).cache.counters.rejectedWrites = 0 := hrejected
    have htaken : s.rejects move = false := not_rejects_of_run hrun
    have hrest := ih (hdated.step h (hsteps move List.mem_cons_self)
        (hstrands move List.mem_cons_self) htaken hnext) (h.step hnext)
      (fun next hin => hsteps next (List.mem_cons_of_mem _ hin))
      (fun next hin => hstrands next (List.mem_cons_of_mem _ hin)) hrejected halive
    simp only [List.append_assoc] at hrest
    exact hrest

/-- The timers are numbered on and on. -/
theorem Working.nextId_le_step (h : s.Working) {move : Move V}
    (halive : (s.step move).cache.isClosed = false) :
    s.cache.expiry.timer.wheel.nextId ≤ (s.step move).cache.expiry.timer.wheel.nextId := by
  have hworks (hworker : move.ofWorker = true) :
      s.cache.expiry.timer.wheel.nextId ≤ (s.step move).cache.expiry.timer.wheel.nextId := by
    rw [← s.nextId_taken move]
    exact (worker_drift h.arranged.coherent.keyed hworker halive).nextId_le
  cases htimed : move.timed with
  | false => rw [(s.step_of_not_timed htimed).2.1]
  | true =>
    cases move with
    | lapse ms steady => exact Nat.le_refl _
    | wake => exact (h.clockwork.tidy.nextId_wake s.cache.clock).ge
    | halt => cases halive
    | workWrite | workRead | workFired => exact hworks rfl
    | _ => cases htimed

theorem Working.not_set_again (h : s.Working) {id : TimerId}
    (hid : id < s.cache.expiry.timer.wheel.nextId) {moves : List (Move V)}
    (halive : (s.run moves).cache.isClosed = false) : s.along (setAt? id) moves = [] := by
  induction moves generalizing s with
  | nil => rfl
  | cons move rest ih =>
    have hnext := ((s.step move).run_onward rest).2 halive
    have hnone : setAt? id s move = none := if_neg fun hset => absurd hid (Nat.not_lt.mpr hset.1)
    rw [along_cons, hnone, ih (h.step hnext) (hid.trans_le (h.nextId_le_step hnext)) halive]
    rfl

/-- A run sets a timer once. -/
theorem Working.set_once (h : s.Working) {id : TimerId} {moves : List (Move V)}
    (halive : (s.run moves).cache.isClosed = false) {set : Nat}
    (hset : set ∈ s.along (setAt? id) moves) : s.along (setAt? id) moves = [set] := by
  induction moves generalizing s with
  | nil => cases hset
  | cons move rest ih =>
    have hnext := ((s.step move).run_onward rest).2 halive
    rw [along_cons] at hset ⊢
    cases hnow : setAt? id s move with
    | none =>
      rw [hnow] at hset
      exact ih (h.step hnext) halive hset
    | some now =>
      have hid : id < (s.step move).cache.expiry.timer.wheel.nextId := by
        unfold setAt? at hnow
        split at hnow
        · rename_i hnumbered
          exact hnumbered.2
        · cases hnow
      rw [hnow, (h.step hnext).not_set_again hid halive] at hset
      rw [(h.step hnext).not_set_again hid halive, List.mem_singleton.mp hset]
      rfl

/-! ## Timers and entries -/

section

variable {options : Options V} {unix : Int} {c : Cache V}

variable (hc : Cache.create options { unix } = .ok c) {moves : List (Move V)}
variable (hsteps : ∀ move ∈ moves, move.inStep = true)
variable (hstrands : ∀ move ∈ moves, move.strands = false)
variable (halive : (({ cache := c } : System V).run moves).cache.isClosed = false)

include hc halive

include hsteps in
/-- The epoch is the Unix time at the start, and the ticks are as the options say. -/
theorem clocks_run_create :
    (({ cache := c } : System V).run moves).cache.clock.epoch = unix ∧
      (({ cache := c } : System V).run moves).cache.expiry.timer.tick =
        max options.tick (.ofMillis 1) := by
  constructor
  · rw [epoch_run _ hsteps halive]
    obtain ⟨contents, _, rfl⟩ := Cache.create_eq_ok hc
    simp [Clock.epoch]
  · rw [((working_create hc).run halive).clockwork.tick, run_options]
    exact congrArg (fun o : Options V => max o.tick _) (Cache.options_create hc)

variable (hrejected :
  (({ cache := c } : System V).run moves).cache.counters.rejectedWrites = 0)

include hrejected hstrands

theorem claimed_of_unrejected : (({ cache := c } : System V).run moves).Claimed [] := by
  have hclaimed : ({ cache := c } : System V).Claimed [] := by
    intro key alarm halarm
    cases (Cache.alarms_create hc key).symm.trans halarm
  have hafter := hclaimed.run (working_create hc) halive
  rwa [unheard_eq_nil hrejected hstrands halive] at hafter

include hsteps

theorem dated_of_unrejected : (({ cache := c } : System V).run moves).Dated fun id =>
    ({ cache := c } : System V).along (setAt? id) moves := by
  have hdated : ({ cache := c } : System V).Dated fun _ => [] := by
    intro _ key alarm halarm
    cases (Cache.alarms_create hc key).symm.trans halarm
  exact hdated.run (working_create hc) hsteps hstrands hrejected halive

theorem prompt_of_unrejected : (({ cache := c } : System V).run moves).Prompt [] := by
  have hunslighted : ({ cache := c } : System V).slights [] moves = [] := by
    refine List.eq_nil_iff_forall_not_mem.mpr fun t ht => ?_
    obtain ⟨before, move, after, rfl, hneglects⟩ :=
      (neglected_of_slighted ht).resolve_left List.not_mem_nil
    cases move with
    | store key value ttl wait =>
      cases (accepts_of_run hrejected).symm.trans hneglects.2.1
    | strandSet key value ttl =>
      cases hstrands _ (List.mem_append_right _ List.mem_cons_self)
    | _ => exact hneglects
  have hafter := (prompt_create hc).run (working_create hc) hsteps halive
  rwa [hunslighted] at hafter

end

/-- When nothing is queued, the timer of an entry that has a slot and an end is on record. -/
theorem Prompt.contains (h : s.Prompt []) (hfits : s.cache.recency.Fitting)
    (hwrites : s.cache.writes.items = []) {key : String} {t : Serial} {moment : Nat}
    (hslot : s.cache.contents.occupant? key = some t) (hend : s.cache.endOf? t = some moment) :
    s.cache.expiry.contains key = true := by
  rcases h hfits key t hslot List.not_mem_nil with hawaits | hheeds
  · simp [Cache.awaits, hwrites] at hawaits
  · obtain ⟨id, halarm, _⟩ := hheeds moment hend
    simp [Expiry.contains, Std.HashMap.contains_eq_isSome_getElem?, halarm]

/-- When nothing is owed to the worker, the owner of a timer has the slot. -/
theorem Claimed.slot (h : s.Claimed []) (hwrites : s.cache.writes.items = [])
    (htold : s.detached = []) {key : String} {alarm : Alarm}
    (halarm : s.cache.expiry.alarms[key]? = some alarm) :
    s.cache.contents.occupant? key = some alarm.owner := by
  have hclaim := h key alarm halarm
  simpa [mem_owed, hwrites, htold] using hclaim

/-- In a run in which no write was rejected and no call failed for want of a deadline, while the worker
lives and has nothing to do: a key has a timer just if it holds an entry with an end. The timer is
the entry's and waits in the wheel. Its deadline is at most the first tick at the end or after it, or
the tick after the one that the clock had reached when the run set it, be the wheel as late as it
may. The wheel has no other tasks. -/
theorem alarm_iff_ending {options : Options V} {unix : Int} {c : Cache V}
    (hc : Cache.create options { unix } = .ok c) {moves : List (Move V)} {s : System V}
    (hs : ({ cache := c } : System V).run moves = s)
    (hsteps : ∀ move ∈ moves, move.inStep = true) (hstrands : ∀ move ∈ moves, move.strands = false)
    (hrejected : s.cache.counters.rejectedWrites = 0) (halive : s.cache.isClosed = false)
    (hwrites : s.cache.writes.items = []) (hfired : s.cache.fired = []) (htold : s.detached = [])
    (hfits : s.cache.recency.Fitting) {tick : Nat}
    (htick : tick = (max options.tick (.ofMillis 1)).millis) :
    (∀ key, s.cache.expiry.contains key = true ↔ ∃ t moment,
      s.cache.contents.occupant? key = some t ∧ s.cache.endOf? t = some moment) ∧
    (∀ (key : String) (alarm : Alarm), s.cache.expiry.alarms[key]? = some alarm →
      s.cache.contents.occupant? key = some alarm.owner ∧
      ∃ moment deadline set, s.cache.endOf? alarm.owner = some moment ∧
        s.cache.expiry.timer.wheel.tasks[alarm.id]? = some { deadline, payload := key } ∧
        ({ cache := c } : System V).along (setAt? alarm.id) moves = [set] ∧
        deadline ≤ max (((moment : Int) - unix).toNat ⌈/⌉ tick) (set + 1)) ∧
    ∀ (id : TimerId) (task : Task String),
      s.cache.expiry.timer.wheel.tasks[id]? = some task →
        ∃ owner, s.cache.expiry.alarms[task.payload]? = some { id, owner } := by
  subst hs
  have hstart := working_create hc
  have htidy := (hstart.run halive).clockwork.tidy
  have hclaimed := claimed_of_unrejected hc hstrands halive hrejected
  have hprompt := prompt_of_unrejected hc hsteps hstrands halive hrejected
  have hdated := dated_of_unrejected hc hsteps hstrands halive hrejected
  obtain ⟨hepoch, hticks⟩ := clocks_run_create hc hsteps halive
  have hset {key : String} {alarm : Alarm}
      (halarm : (({ cache := c } : System V).run moves).cache.expiry.alarms[key]? = some alarm) :=
    hdated hfits key alarm halarm (hclaimed.slot hwrites htold halarm)
      (by simp [Cache.awaits, hwrites])
  refine ⟨fun key => ⟨fun hin => ?_, ?_⟩, fun key alarm halarm => ?_, htidy.owned⟩
  · unfold Expiry.contains at hin
    rw [Std.HashMap.contains_eq_isSome_getElem?] at hin
    obtain ⟨alarm, halarm⟩ := Option.isSome_iff_exists.mp hin
    obtain ⟨moment, hend, _⟩ := hset halarm
    exact ⟨alarm.owner, moment, hclaimed.slot hwrites htold halarm, hend⟩
  · rintro ⟨t, moment, hslot, hend⟩
    exact hprompt.contains hfits hwrites hslot hend
  · refine ⟨hclaimed.slot hwrites htold halarm, ?_⟩
    obtain ⟨moment, hend, hdue⟩ := hset halarm
    have hwaiting := (htidy.recorded key alarm halarm).resolve_left (by simp [hfired])
    obtain ⟨deadline, htask⟩ := hwaiting
    obtain ⟨set, hin, hle⟩ := hdue _ htask
    refine ⟨moment, deadline, set, hend, htask, hstart.set_once halive hin, ?_⟩
    unfold Expiry.dueTick at hle
    rwa [hepoch, hticks, ← htick] at hle

/-- The first value that is stored has the only timer once the worker has come to it. -/
theorem alarm_iff_ending_first :
    ∃ c : Cache Nat, Cache.create { capacity := 1 } { unix := 0 } = .ok c ∧
      let start : System Nat := { cache := c }
      let moves := [.store "k" 1 (.ofMillis 10) false, .workWrite]
      let s := start.run moves
      s.cache.contents.occupant? "k" = some 0 ∧ s.cache.endOf? 0 = some 10 ∧
        s.cache.expiry.alarms["k"]? = some { id := 1, owner := 0 } ∧
        start.along (setAt? 1) moves = [0] ∧
        s.cache.expiry.timer.wheel.tasks[(1 : TimerId)]? = some { deadline := 1, payload := "k" } ∧
        ∀ (id : TimerId) (task : Task String),
          s.cache.expiry.timer.wheel.tasks[id]? = some task → id = 1 := by
  let options : Options Nat := { capacity := 1 }
  obtain ⟨c, hc⟩ := Cache.exists_create (show options.shards ≤ _ by decide) { unix := 0 }
  refine ⟨c, hc, ?_⟩
  intro start moves s
  obtain ⟨hslot, hend, halarm, htasks, hrejected, halive, hwrites, hfired, htold⟩ :
      s.cache.contents.occupant? "k" = some 0 ∧ s.cache.endOf? 0 = some 10 ∧
      s.cache.expiry.alarms["k"]? = some { id := 1, owner := 0 } ∧
      (∀ id : TimerId, s.cache.expiry.timer.wheel.tasks[id]? =
        if id = 1 then some { deadline := 1, payload := "k" } else none) ∧
      s.cache.counters.rejectedWrites = 0 ∧ s.cache.isClosed = false ∧
      s.cache.writes.items = [] ∧ s.cache.fired = [] ∧ s.detached = [] := by
    have hmade : (({ unix := 0 } : Clock).stampAfter (.ofMillis 10)).map
        (fun stamp => satAdd stamp options.expireDelay.millis) = some 10 := by decide
    obtain ⟨recency, place, _, hrun⟩ := linked_first hc (by decide) "k" 1 (.ofMillis 10) false
    obtain ⟨_, _, hshown, hslots⟩ := Cache.contents_first hc "k" 1 (.ofMillis 10) place
    obtain ⟨halarm, htasks⟩ := Expiry.replace_start options.tick options.slots { unix := 0 }
      "k" 0 (show (Expiry.Request.set _ _ _ 10).InRange from ⟨by decide, by decide⟩)
    have hdue : (Expiry.start options.tick options.slots).dueAt { unix := 0 } 10 = 1 := by decide
    rw [hmade] at hrun
    rw [hdue] at htasks
    rw [show s = _ from hrun]
    obtain ⟨_, _, rfl⟩ := Cache.create_eq_ok hc
    exact ⟨(hslots "k").trans (if_pos rfl), Eq.trans (Cache.endOf?_of_shown hshown) hmade, halarm,
      htasks, rfl, rfl, rfl, rfl, rfl⟩
  have hfits : s.cache.recency.Fitting := fitting_of_bounded hc (by decide) (by decide) moves
  obtain ⟨_, hwaiting, _⟩ := alarm_iff_ending hc rfl (by simp [moves, Move.inStep])
    (by simp [moves, Move.strands]) hrejected halive hwrites hfired htold hfits rfl
  obtain ⟨_, _, _, set, _, _, hset, _⟩ := hwaiting "k" _ halarm
  have hzero : set = 0 := by
    obtain ⟨before, move, after, hmoves, hnow⟩ :=
      mem_along (show set ∈ start.along (setAt? 1) moves by rw [hset]; exact List.mem_singleton_self _)
    have hclock : (start.run before).cache.clock.sinceStart = 0 := by
      have hnew : c.clock.sinceStart = 0 := by
        obtain ⟨_, _, rfl⟩ := Cache.create_eq_ok hc
        rfl
      rcases before with _ | ⟨first, _ | ⟨second, rest⟩⟩
      · exact hnew
      · obtain rfl := (List.cons.inj hmoves).1
        exact (congrArg Clock.sinceStart (c.lodge_frame "k" 1 (.ofMillis 10) false).2.1).trans hnew
      · simp [moves] at hmoves
    unfold setAt? at hnow
    rw [hclock, Nat.zero_div] at hnow
    split at hnow
    · exact (Option.some.inj hnow).symm
    · cases hnow
  refine ⟨hslot, hend, halarm, hzero ▸ hset, htasks 1, fun id task htask => ?_⟩
  rw [htasks] at htask
  by_contra hne
  rw [if_neg hne] at htask
  cases htask

/-- The worker lives and has nothing to do, and no write was refused. -/
structure AtRest (s : System V) : Prop where
  rejected : s.cache.counters.rejectedWrites = 0
  alive : s.cache.isClosed = false
  writes : s.cache.writes.items = []
  reads : s.cache.reads.sink.items = []
  fired : s.cache.fired = []
  told : s.detached = []

/-- Time passes before the worker comes to the first value, and its timer is set by the clock of that
moment. -/
theorem run_store_lapse {options : Options V} {clock : Clock} {c : Cache V}
    (hc : Cache.create options clock = .ok c)
    (hbound : 0 < options.capacity ∧ options.capacity < Recency.maxPlaces) (key : String) (value : V)
    (ttl : Span) (ms steady moment deadline : Nat)
    (hmade : (clock.stampAfter ttl).map (fun stamp => satAdd stamp options.expireDelay.millis) =
      some moment)
    (hrange : (Expiry.Request.set (clock.lapse ms steady) key 0 moment).InRange)
    (hdue : (Expiry.start options.tick options.slots).dueAt (clock.lapse ms steady) moment =
      deadline) :
    let s := ({ cache := c } : System V).run [.store key value ttl false, .lapse ms steady, .workWrite]
    s.AtRest ∧ s.cache.endOf? 0 = some moment ∧
      s.cache.expiry.alarms[key]? = some { id := 1, owner := 0 } ∧
      s.cache.expiry.timer.wheel.tasks[(1 : TimerId)]? = some { deadline, payload := key } ∧
      s.cache.expiry.timer.wheel.current = 0 := by
  intro s
  obtain ⟨recency, place, _, hwork⟩ :=
    Cache.workWrite_first hc hbound key value ttl false (clock.lapse ms steady)
  obtain ⟨_, _, hshown, _⟩ := Cache.contents_first hc key value ttl place
  obtain ⟨halarm, htasks⟩ :=
    Expiry.replace_start options.tick options.slots (clock.lapse ms steady) key 0 hrange
  obtain ⟨_, hcurrent⟩ := (Expiry.start options.tick options.slots).replace_frame
    (clock.lapse ms steady) key 0 moment
  have hclock : (c.lodge key value ttl false).2.clock = clock := by
    rw [(c.lodge_frame key value ttl false).2.1]
    obtain ⟨_, _, rfl⟩ := Cache.create_eq_ok hc
    rfl
  have hrun : s = { cache := ({ (c.lodge key value ttl false).2 with
      clock := (c.lodge key value ttl false).2.clock.lapse ms steady } : Cache V).workWrite } := rfl
  rw [hclock, hwork, hmade] at hrun
  rw [hrun]
  subst hdue
  obtain ⟨_, _, rfl⟩ := Cache.create_eq_ok hc
  exact ⟨⟨rfl, rfl, rfl, rfl, rfl, rfl⟩, Eq.trans (Cache.endOf?_of_shown hshown) hmade, halarm,
    htasks 1, hcurrent⟩

/-- A timer that is set while the wheel lags behind the clock is due later than the next tick of the
wheel, and one that is set after the clocks have come apart later than the end. A value of which the
worker is never told has an end, but no timer; nor has one whose handle is taken for that of an entry
that is not linked. -/
theorem timer_late_or_missing :
    (∃ c : Cache Nat, Cache.create { capacity := 1 } { unix := 0 } = .ok c ∧
      let s := ({ cache := c } : System Nat).run
        [.store "k" 1 (.ofMillis 10) false, .lapse 2500 2500, .workWrite]
      s.AtRest ∧ s.cache.endOf? 0 = some 10 ∧
        s.cache.expiry.alarms["k"]? = some { id := 1, owner := 0 } ∧
        s.cache.expiry.timer.wheel.tasks[(1 : TimerId)]? = some { deadline := 3, payload := "k" } ∧
        s.cache.expiry.timer.wheel.current = 0 ∧ max (10 ⌈/⌉ 1000) (0 + 1) < 3) ∧
    (∃ c : Cache Nat, Cache.create { capacity := 1 } { unix := 0 } = .ok c ∧
      let s := ({ cache := c } : System Nat).run
        [.store "k" 1 (.ofMillis 10000) false, .lapse 0 5000, .workWrite]
      s.AtRest ∧ s.cache.endOf? 0 = some 10000 ∧
        s.cache.expiry.alarms["k"]? = some { id := 1, owner := 0 } ∧
        s.cache.expiry.timer.wheel.tasks[(1 : TimerId)]? = some { deadline := 15, payload := "k" } ∧
        max (10000 ⌈/⌉ 1000) (5000 / 1000 + 1) < 15) ∧
    (∃ c : Cache Nat,
      Cache.create { syncSetTimeout := some (.ofSeconds Clock.steadySeconds) } { unix := 0 } = .ok c ∧
        c.setDeadlineFits = false ∧
        let s := ({ cache := c } : System Nat).run [.strandSet "k" 1 (.ofMillis 10)]
        s.AtRest ∧ s.cache.contents.occupant? "k" = some 0 ∧ s.cache.endOf? 0 = some 10 ∧
          s.cache.expiry.contains "k" = false) ∧
    ∃ c : Cache Nat, Cache.create { capacity := 0 } { unix := 0 } = .ok c ∧
      let last := Recency.maxPlaces - 1
      let s := ({ cache := c } : System Nat).run (wearOut last (last - 1))
      s.AtRest ∧ s.cache.expiry.contains (numbered last) = false ∧
        ∃ t, s.cache.contents.occupant? (numbered last) = some t ∧ s.cache.endOf? t = some 10 := by
  refine ⟨?_, ?_, ?_, ?_⟩
  · let options : Options Nat := { capacity := 1 }
    obtain ⟨c, hc⟩ := Cache.exists_create (show options.shards ≤ _ by decide) { unix := 0 }
    obtain ⟨hrests, hend, halarm, htask, hcurrent⟩ := run_store_lapse hc (by decide) "k" 1
      (.ofMillis 10) 2500 2500 10 3 (by decide) ⟨by decide, by decide⟩ (by decide)
    exact ⟨c, hc, hrests, hend, halarm, htask, hcurrent, by decide⟩
  · let options : Options Nat := { capacity := 1 }
    obtain ⟨c, hc⟩ := Cache.exists_create (show options.shards ≤ _ by decide) { unix := 0 }
    obtain ⟨hrests, hend, halarm, htask, _⟩ := run_store_lapse hc (by decide) "k" 1
      (.ofMillis 10000) 0 5000 10000 15 (by decide) ⟨by decide, by decide⟩ (by decide)
    exact ⟨c, hc, hrests, hend, halarm, htask, by decide⟩
  · let options : Options Nat := { syncSetTimeout := some (.ofSeconds Clock.steadySeconds) }
    obtain ⟨c, hc⟩ := Cache.exists_create (show options.shards ≤ _ by decide) { unix := 0 }
    have hnever : ({ unix := 0 } : Clock).canAwait (.ofSeconds Clock.steadySeconds) = false := by
      decide
    have hmade : (({ unix := 0 } : Clock).stampAfter (.ofMillis 10)).map
        (fun stamp => satAdd stamp options.expireDelay.millis) = some 10 := by decide
    refine ⟨c, hc, ?_, ?_⟩
    · obtain ⟨_, _, rfl⟩ := Cache.create_eq_ok hc
      exact hnever
    intro s
    have hslot : (c.written "k" 1 (.ofMillis 10)).occupant? "k" = some 0 := by
      rw [Cache.occupant?_written, if_pos rfl, Cache.vacant_create hc, Cache.nextSerial_create hc]
      rfl
    have hend := Cache.endOf?_written (coherent_create hc).keyed "k" 1 (.ofMillis 10) hslot
    have hnone := Cache.alarms_create hc "k"
    rw [if_pos rfl] at hend
    have hrun : s = { cache := { c with contents := c.written "k" 1 (.ofMillis 10) } } :=
      ({ cache := c } : System Nat).step_strandSet "k" 1 (.ofMillis 10)
    rw [hrun]
    have hmissing : c.expiry.contains "k" = false := by
      unfold Expiry.contains
      rw [Std.HashMap.contains_eq_isSome_getElem?, hnone]
      rfl
    obtain ⟨_, _, rfl⟩ := Cache.create_eq_ok hc
    exact ⟨⟨rfl, rfl, rfl, rfl, rfl, rfl⟩, hslot, hend.trans hmade, hmissing⟩
  · let options : Options Nat := { capacity := 0 }
    obtain ⟨c, hc⟩ := Cache.exists_create (show options.shards ≤ _ by decide) { unix := 0 }
    obtain ⟨recency, contents, expiry, hrun, hslot, hshown, hmissing⟩ := run_wearOut hc
      (Recency.maxPlaces - 1) (Recency.maxPlaces - 2) (by decide) (by decide) (by decide) (by decide)
    have hmade : (some 10).map (fun stamp => satAdd stamp options.expireDelay.millis) = some 10 := by
      decide
    refine ⟨c, hc, ?_⟩
    intro last s
    rw [show s = _ from hrun]
    obtain ⟨_, _, rfl⟩ := Cache.create_eq_ok hc
    exact ⟨⟨rfl, rfl, rfl, rfl, rfl, rfl⟩, hmissing, _, hslot,
      Eq.trans (Cache.endOf?_of_shown hshown) hmade⟩

end System

end TimedCache
