import TimedCache.Proofs.Cache.Agreement
import TimedCache.Proofs.Cache.Charges
import TimedCache.Proofs.Cache.Retention

/-!
What becomes of a deletion. Once the worker has come to it the entry is unlinked, its timer is off
the record, and the callback was run, once; and none of that is undone later. So all that can happen
to a deletion is that the worker never hears of it.
-/

namespace TimedCache

/-- The entry that a deletion was reported for. -/
def Event.deleted? {V : Type} : Event V → Option Serial
  | .left .deleted s _ _ => some s
  | _ => none

namespace Contents

variable {V : Type} {c c' : Contents V}

theorem Gone.keyOf {t : Serial} (h : c.Gone t) : ∃ key, c.keyOf t = some key := by
  have hlt := h.1
  have hmade : c.entry? t = some c.entries[t] := Array.getElem?_eq_getElem hlt
  exact ⟨_, keyOf_of_entry hmade⟩

/-- Slots were emptied at most. -/
structure Emptied (c c' : Contents V) : Prop where
  keyOf_eq : c'.keyOf = c.keyOf
  occupant : ∀ key s, c'.occupant? key = some s → c.occupant? key = some s

namespace Emptied

theorem refl (c : Contents V) : Emptied c c := ⟨rfl, fun _ _ => id⟩

theorem of_vacated {gone : Option Serial} (h : Vacated c c' gone) : Emptied c c' :=
  ⟨h.keyOf_eq, fun key s hs => ((h.occupant_iff key s).mp hs).1⟩

theorem takeKey (c : Contents V) (key : String) : Emptied c (c.takeKey key).2 where
  keyOf_eq := funext fun t => congrArg (Option.map _) (c.entry?_takeKey key t)
  occupant other s hs := by
    rw [c.occupant?_takeKey key other] at hs
    split at hs
    · cases hs
    · exact hs

theorem clearSlots (h : Emptied c c') : Emptied c c'.clearSlots where
  keyOf_eq := by
    rw [← h.keyOf_eq]
    exact funext fun t => congrArg (Option.map _) (c'.entry?_clearSlots t)
  occupant key s hs := by
    rw [c'.occupant?_clearSlots key] at hs
    cases hs

end Emptied

end Contents

namespace Cache

variable {V : Type} {c : Cache V}

/-- The entries whose deletion the callback was run for, in order. -/
def reported (c : Cache V) : List Serial := c.log.toList.filterMap Event.deleted?

theorem reported_eq_told (c : Cache V) : c.reported = c.told .deleted := by
  unfold reported told notices
  rw [List.filter_filterMap, List.map_filterMap]
  refine List.filterMap_congr fun event _ => ?_
  cases event with
  | left reason => cases reason <;> rfl
  | loading | loadingAll => rfl

/-- The timer on record for a key is one of an entry made for the key. -/
def Filed (c : Cache V) : Prop :=
  ∀ (key : String) (alarm : Alarm), c.expiry.alarms[key]? = some alarm →
    c.contents.keyOf alarm.owner = some key

/-- No timer is left of an entry that was buried. -/
theorem Filed.untimed_bury (h : c.Filed) (hkeyed : c.contents.WellKeyed) {t : Serial}
    {name : String} (hname : c.contents.keyOf t = some name)
    (halive : (c.bury t).isClosed = false) {key : String} {alarm : Alarm}
    (halarm : (c.bury t).expiry.alarms[key]? = some alarm) : alarm.owner ≠ t := by
  rintro rfl
  have hvacated := Recency.remove_vacated hkeyed c.recency alarm.owner
  rw [expiry_bury halive] at halarm
  unfold disowned at halarm
  rw [show (c.removed alarm.owner).contents.keyOf alarm.owner = some name from
    (congrFun hvacated.keyOf_eq alarm.owner).trans hname] at halarm
  change (c.expiry.removeOwned name alarm.owner).2.alarms[key]? = some alarm at halarm
  rw [Expiry.alarms_removeOwned] at halarm
  split at halarm
  · cases halarm
  · rename_i hcond
    have hfiled := h key alarm halarm
    rw [hname] at hfiled
    cases hfiled
    exact hcond ⟨rfl, by rw [halarm]; rfl⟩

end Cache

namespace System

variable {V : Type} {s : System V}

/-- Only a caller who stores a value makes an entry or gives a slot to one. -/
theorem Coherent.step_emptied (h : s.Coherent) {move : Move V} (hmove : move.storedKey? = none) :
    s.cache.contents.Emptied (s.step move).cache.contents := by
  have hkeyed := h.keyed
  have hdistant (hmove : move.distant = true) :
      s.cache.contents.Emptied (s.step move).cache.contents := by
    rw [(s.step_of_distant hmove).1]
    exact .refl _
  cases move with
  | store | strandSet => cases hmove
  | detach other =>
    rw [step_detach]
    exact .takeKey _ other
  | strandDelete other =>
    rw [step_strandDelete]
    exact .takeKey _ other
  | workWrite =>
    change s.cache.contents.Emptied s.cache.workWrite.contents
    cases hitems : s.cache.writes.items with
    | nil =>
      rw [Cache.workWrite_of_nil hitems]
      exact .refl _
    | cons op rest =>
      rw [(Cache.workWrite_aside hitems).1.contents]
      cases op with
      | set u => exact .of_vacated (Recency.add_vacated hkeyed s.cache.recency u).1
      | update u => exact .of_vacated (Recency.add_vacated hkeyed s.cache.recency u).1
      | delete u => exact .of_vacated (Recency.remove_vacated hkeyed s.cache.recency u)
      | clear =>
        exact (Contents.Emptied.of_vacated
          (Recency.clear_vacated hkeyed s.cache.recency)).clearSlots
      | flush => exact .refl _
  | workRead =>
    obtain ⟨reads, places, heq⟩ := s.cache.workRead_frame
    change s.cache.contents.Emptied s.cache.workRead.contents
    rw [heq]
    exact .refl _
  | workFired =>
    obtain ⟨base, haside, _, _, hbase⟩ := s.cache.workFired_aside
    change s.cache.contents.Emptied s.cache.workFired.contents
    rw [haside.contents]
    rcases hbase with ⟨hcontents, _⟩ | ⟨_, _, _, u, _, _, hcontents, _⟩
    · rw [hcontents]
      exact .refl _
    · rw [hcontents]
      exact .of_vacated (Recency.remove_vacated hkeyed s.cache.recency u)
  | _ => exact hdistant rfl

/-- The key of an entry does not change. -/
theorem Coherent.step_keyOf (h : s.Coherent) (move : Move V) {t : Serial} {key : String}
    (ht : s.cache.contents.keyOf t = some key) :
    (s.step move).cache.contents.keyOf t = some key := by
  cases move with
  | store other value ttl wait =>
    exact (Cache.lodge_step h.keyed 0 other value ttl wait).keyOf_eq ht
  | strandSet other value ttl =>
    rw [step_strandSet]
    exact Cache.keyOf_written ht other value ttl
  | _ => exact (congrFun (h.step_emptied rfl).keyOf_eq t).trans ht

/-- Taking a message sets no timer. -/
theorem alarm_of_taken {move : Move V} {key : String} {alarm : Alarm}
    (h : (s.cache.taken move).alarms[key]? = some alarm) :
    s.cache.expiry.alarms[key]? = some alarm ∧
      (s.cache.taken move).timer = s.cache.expiry.timer := by
  unfold Cache.taken at h ⊢
  cases move with
  | workWrite =>
    dsimp only at h ⊢
    split at h
    · simp [Expiry.clear] at h
    · rename_i hcond
      rw [if_neg hcond]
      exact ⟨h, rfl⟩
  | workFired =>
    cases hfired : s.cache.fired with
    | nil =>
      rw [hfired] at h
      exact ⟨h, rfl⟩
    | cons task rest =>
      rw [hfired] at h
      dsimp only at h ⊢
      rw [Expiry.alarms_acknowledge] at h
      split at h
      · cases h
      · exact ⟨h, Expiry.acknowledge_frame _ _ _⟩
  | _ => exact ⟨h, rfl⟩

/-- A timer that was not on record before a move is one of an entry that has a slot. -/
theorem Coherent.step_alarm (h : s.Coherent) {move : Move V}
    (halive : (s.step move).cache.isClosed = false) {key : String} {alarm : Alarm}
    (halarm : (s.step move).cache.expiry.alarms[key]? = some alarm) :
    s.cache.expiry.alarms[key]? = some alarm ∨
      (s.step move).cache.contents.occupant? key = some alarm.owner := by
  have hworks (hworker : move.ofWorker = true) :
      s.cache.expiry.alarms[key]? = some alarm ∨
        (s.step move).cache.contents.occupant? key = some alarm.owner :=
    ((worker_drift h.keyed hworker halive).alarm halarm).imp_left fun htaken =>
      (alarm_of_taken htaken).1
  cases htimed : move.timed with
  | false =>
    rw [(s.step_of_not_timed htimed).2.1] at halarm
    exact Or.inl halarm
  | true =>
    cases move with
    | lapse | wake => exact Or.inl halarm
    | halt => cases halive
    | workWrite | workRead | workFired => exact hworks rfl
    | _ => cases htimed

theorem departed?_deleted (s : System V) (move : Move V) :
    s.departed? move .deleted = s.buried? move := by
  cases move with
  | workWrite => exact s.departed?_workWrite .deleted
  | workFired => exact s.departed?_workFired .deleted
  | _ => rfl

/-- The callback is run for the deletions to which the worker comes, and for no others. -/
theorem Coherent.reported_step (h : s.Coherent) (move : Move V) :
    (s.step move).cache.reported = s.cache.reported ++
      if s.cache.options.onDelete.isSome then (s.buried? move).toList else [] := by
  rw [Cache.reported_eq_told, Cache.reported_eq_told, h.told_step, s.departed?_deleted]
  rfl

theorem Coherent.reported_run (h : s.Coherent) (moves : List (Move V)) :
    (s.run moves).cache.reported = s.cache.reported ++
      if s.cache.options.onDelete.isSome then s.along buried? moves else [] := by
  induction moves generalizing s with
  | nil =>
    unfold along
    rw [ite_self, List.append_nil]
    rfl
  | cons move rest ih =>
    rw [run_cons, ih (h.step move), h.reported_step move, s.step_options move, along_cons,
      List.append_assoc]
    split <;> rfl

/-! ## Buried for good -/

/-- The slots, the list and the timers are as the moves so far leave them while the worker lives. -/
structure Working (s : System V) : Prop where
  arranged : s.Arranged
  clockwork : s.cache.Clockwork
  filed : s.cache.Filed

theorem working_create {options : Options V} {clock : Clock} {c : Cache V}
    (h : Cache.create options clock = .ok c) : ({ cache := c } : System V).Working := by
  refine ⟨arranged_create h, Cache.clockwork_create h, ?_⟩
  obtain ⟨contents, _, rfl⟩ := Cache.create_eq_ok h
  intro key alarm halarm
  simp [Expiry.start] at halarm

theorem Working.step (h : s.Working) {move : Move V}
    (halive : (s.step move).cache.isClosed = false) : (s.step move).Working where
  arranged := h.arranged.step move
  clockwork := clockwork_step h.clockwork h.arranged.coherent.keyed halive
  filed key alarm halarm := by
    rcases h.arranged.coherent.step_alarm halive halarm with hold | hslot
    · exact h.arranged.coherent.step_keyOf move (h.filed key alarm hold)
    · exact (h.arranged.step move).coherent.keyed.keyOf_of_occupant hslot

theorem Working.run (h : s.Working) {moves : List (Move V)}
    (halive : (s.run moves).cache.isClosed = false) : (s.run moves).Working := by
  induction moves generalizing s with
  | nil => exact h
  | cons move rest ih => exact ih (h.step (((s.step move).run_onward rest).2 halive)) halive

/-- Nothing is left of an entry: no slot, no place in the list and no timer. -/
structure Laid (s : System V) (t : Serial) : Prop where
  gone : s.cache.contents.Gone t
  unlisted : s.cache.recency.Fitting → t ∉ s.cache.recency.toList
  untimed : ∀ (key : String) (alarm : Alarm), s.cache.expiry.alarms[key]? = some alarm →
    alarm.owner ≠ t

theorem Laid.step {t : Serial} (hlaid : s.Laid t) (h : s.Working) {move : Move V}
    (halive : (s.step move).cache.isClosed = false) : (s.step move).Laid t := by
  have hgone := (h.arranged.coherent.step_follows move).ages.gone t hlaid.gone
  refine ⟨hgone, ?_, ?_⟩
  · intro hfits ht
    rcases (h.arranged.step_listed move hfits ht).1.linked with hold | ⟨key, hslot⟩
    · exact hlaid.unlisted ((s.step_onward move).1.fitting hfits) hold
    · exact hgone.2 key hslot
  · rintro key alarm halarm rfl
    rcases h.arranged.coherent.step_alarm halive halarm with hold | hslot
    · exact hlaid.untimed key alarm hold rfl
    · exact hgone.2 key hslot

/-- Nothing is left of an entry once the worker has come to its deletion. -/
theorem Working.laid_of_buried (h : s.Working) {move : Move V}
    (halive : (s.step move).cache.isClosed = false) {t : Serial}
    (hburied : s.buried? move = some t) : (s.step move).Laid t := by
  have hcoherent := h.arranged.coherent
  cases move with
  | workWrite =>
    obtain ⟨op, hhead, hop⟩ := Option.bind_eq_some_iff.mp hburied
    obtain ⟨rest, hitems⟩ := List.head?_eq_some_iff.mp hhead
    cases op with
    | delete u =>
      cases hop
      have hgone := hcoherent.deleted_gone t (by rw [hitems]; exact List.mem_cons_self)
      refine ⟨(hcoherent.step_follows _).ages.gone t hgone, ?_, ?_⟩
      · exact fun hfits ht => (h.arranged.step_listed .workWrite hfits ht).2 hburied
      · intro key alarm halarm
        obtain ⟨name, hname⟩ := hgone.keyOf
        change s.cache.workWrite.isClosed = false at halive
        change s.cache.workWrite.expiry.alarms[key]? = some alarm at halarm
        rw [Cache.workWrite_of_cons hitems] at halive halarm
        exact Cache.Filed.untimed_bury (c := s.cache.received rest) h.filed hcoherent.keyed hname
          halive halarm
    | _ => cases hop
  | _ => cases hburied

theorem Working.laid_run (h : s.Working) {moves : List (Move V)}
    (halive : (s.run moves).cache.isClosed = false) {t : Serial}
    (ht : s.Laid t ∨ t ∈ s.along buried? moves) : (s.run moves).Laid t := by
  induction moves generalizing s with
  | nil => exact ht.resolve_right List.not_mem_nil
  | cons move rest ih =>
    have halive' := ((s.step move).run_onward rest).2 halive
    refine ih (h.step halive') halive ?_
    rcases ht with hlaid | hin
    · exact Or.inl (hlaid.step h halive')
    · rcases List.mem_append.mp hin with hnow | hlater
      · exact Or.inl (h.laid_of_buried halive' (Option.mem_toList.mp hnow))
      · exact Or.inr hlater

/-- While the worker lives and has done what is queued, nothing is left of an entry that a caller
deleted, and the callback was run for it once, unless the worker has never heard of the deletion; then
the callback was not run at all. The worker hears of every deletion but those that were offered to a
full queue and those of callers who have failed for want of a deadline. -/
theorem laid_once_unless_refused {options : Options V} {clock : Clock} {c : Cache V}
    (hc : Cache.create options clock = .ok c) {moves : List (Move V)} {s : System V}
    (hs : ({ cache := c } : System V).run moves = s) (halive : s.cache.isClosed = false)
    (hdrained : s.cache.writes.items = []) {t : Serial}
    (htaken : t ∈ ({ cache := c } : System V).along taken? moves) (htold : t ∉ s.detached) :
    (t ∉ ({ cache := c } : System V).along unheard? moves →
      (s.cache.recency.Fitting → t ∉ s.cache.recency.toList) ∧
      (∀ (key : String) (alarm : Alarm), s.cache.expiry.alarms[key]? = some alarm →
        alarm.owner ≠ t) ∧
      (∀ (id : TimerId) (task : Task String), s.cache.expiry.timer.wheel.tasks[id]? = some task →
        ∃ owner, owner ≠ t ∧ s.cache.expiry.alarms[task.payload]? = some { id, owner }) ∧
      (options.onDelete.isSome → s.cache.reported.count t = 1)) ∧
    (t ∈ ({ cache := c } : System V).along unheard? moves → t ∉ s.cache.reported) ∧
    (.offerDelete t ∉ moves → (∀ key, .strandDelete key ∉ moves) →
      t ∉ ({ cache := c } : System V).along unheard? moves) := by
  have hworking := working_create hc
  have hcoherent := hworking.arranged.coherent
  have hreported := hcoherent.reported_run moves
  have hbalance := count_owed_run ({ cache := c } : System V) moves (hs ▸ halive) t
  have honce := hcoherent.count_taken_le moves t
  have hsome := List.count_pos_iff.mpr htaken
  have hempty : ({ cache := c } : System V).owed = [] ∧ c.reported = [] ∧ c.options = options := by
    obtain ⟨contents, _, rfl⟩ := Cache.create_eq_ok hc
    exact ⟨rfl, rfl, rfl⟩
  have hsettled : s.owed.count t = 0 := by
    refine List.count_eq_zero.mpr ?_
    rw [mem_owed, hdrained]
    exact fun hin => hin.elim htold nofun
  rw [hs, hempty.1, hsettled, List.count_nil] at hbalance
  rw [hs, show ({ cache := c } : System V).cache.reported = [] from hempty.2.1,
    show ({ cache := c } : System V).cache.options = options from hempty.2.2,
    List.nil_append] at hreported
  refine ⟨?_, ?_, ?_⟩
  · intro hheard
    rw [List.count_eq_zero.mpr hheard] at hbalance
    have hburied : (({ cache := c } : System V).along buried? moves).count t = 1 := by omega
    have hlaid : s.Laid t :=
      hs ▸ hworking.laid_run (hs ▸ halive) (Or.inr (List.count_pos_iff.mp (by omega)))
    have hfinal : s.Working := hs ▸ hworking.run (hs ▸ halive)
    refine ⟨hlaid.unlisted, hlaid.untimed, ?_, ?_⟩
    · intro id task htask
      obtain ⟨owner, halarm⟩ := hfinal.clockwork.tidy.owned id task htask
      exact ⟨owner, hlaid.untimed task.payload _ halarm, halarm⟩
    · intro hhook
      rw [hreported, if_pos hhook, hburied]
  · intro hunheard hin
    have hpos := List.count_pos_iff.mpr hunheard
    rw [hreported] at hin
    split at hin
    · have hburied := List.count_pos_iff.mpr hin
      omega
    · cases hin
  · intro hoffered hstranded hin
    rcases offered_of_unheard (hs ▸ halive) hin with hoffer | ⟨key, hstrand⟩
    · exact hoffered hoffer
    · exact hstranded key hstrand

/-- An entry is deleted before the worker has linked it. -/
theorem laid_once_unless_refused_early :
    ∃ (c : Cache Nat) (s : System Nat),
      ({ cache := c } : System Nat).run
        ([.store "k" 1 .zero false, .detach "k", .sendDelete c.nextSerial] ++
          List.replicate 2 .workWrite) = s ∧
      s.cache.reported.count c.nextSerial = 1 := by
  let options : Options Nat := { capacity := 1, onDelete := some {} }
  obtain ⟨c, hc⟩ := Cache.exists_create (show options.shards ≤ _ by decide) { unix := 0 }
  let moves : List (Move Nat) := [.store "k" 1 .zero false, .detach "k", .sendDelete c.nextSerial] ++
    List.replicate 2 .workWrite
  have htame : options.Tame := by
    rintro hook (hhook | hhook) key <;> cases hhook
    rfl
  have halive : (({ cache := c } : System Nat).run moves).cache.isClosed = false :=
    alive_of_tame hc htame (by decide) (by simp [moves])
  obtain ⟨hitems, htold, htaken⟩ := run_store_delete hc "k" 1 .zero false
  have hdone : (({ cache := c } : System Nat).run moves).cache.writes.items = [] ∧
      (({ cache := c } : System Nat).run moves).detached = [] := by
    rw [run_append] at halive ⊢
    obtain ⟨hdrained, hdetached⟩ := run_workWrites _ 2 halive
    rw [hdrained, hdetached, hitems]
    exact ⟨rfl, htold⟩
  have hdeleted : c.nextSerial ∈ ({ cache := c } : System Nat).along taken? moves := by
    rw [along_append, htaken]
    exact List.mem_append_left _ List.mem_cons_self
  have hknown : c.nextSerial ∉ (({ cache := c } : System Nat).run moves).detached := by
    rw [hdone.2]
    exact List.not_mem_nil
  obtain ⟨hlaid, _, hoffered⟩ := laid_once_unless_refused hc rfl halive hdone.1 hdeleted hknown
  obtain ⟨_, _, _, hreported⟩ := hlaid (hoffered (by simp [moves]) (by simp [moves]))
  exact ⟨c, _, rfl, hreported rfl⟩

end System

end TimedCache
