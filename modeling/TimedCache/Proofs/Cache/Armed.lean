import TimedCache.Proofs.Cache.Deletions

/-!
Whose timers are on record. The worker sets a timer for an entry as it links it, and sets one anew
only for an entry that had one. So while an entry that has a timer keeps its slot it is linked, and
the worker that finds its end come takes it out of the list as well as out of its slot.
-/

namespace TimedCache

namespace Cache

variable {V : Type} {c : Cache V} {s : Serial} {key : String} {alarm : Alarm}

/-! ## Whose timer is set -/

theorem alarm_of_disowned (h : (c.disowned s).alarms[key]? = some alarm) :
    c.expiry.alarms[key]? = some alarm := by
  unfold disowned at h
  split at h
  · rw [Expiry.alarms_removeOwned] at h
    split at h
    · cases h
    · exact h
  · exact h

/-- A timer is set for the entry that is linked, and for no other. -/
theorem owner_of_upsert (halive : (c.upsert s).isClosed = false)
    (halarm : (c.upsert s).expiry.alarms[key]? = some alarm) :
    c.expiry.alarms[key]? = some alarm ∨
      ((c.upsert s).contents.handle? alarm.owner).isSome = true := by
  have hretimed (h : (c.retimed s).alarms[key]? = some alarm) :
      c.expiry.alarms[key]? = some alarm ∨
        ((c.upsert s).contents.handle? alarm.owner).isSome = true := by
    unfold retimed at h
    split at h
    · rename_i hlinked
      unfold renewed at h
      split at h
      · rename_i other _
        by_cases heq : key = other
        · subst heq
          right
          rw [Expiry.owner_of_renew h, (c.upsert_aside s).contents]
          exact (Bool.and_eq_true_iff.mp hlinked).2
        · rw [Expiry.alarms_renew_of_ne _ _ _ _ _ heq] at h
          exact Or.inl h
      · exact Or.inl h
    · exact Or.inl h
  rw [(expiry_upsert halive).2] at halarm
  cases hvictim : (c.recency.add c.contents s).1 with
  | none =>
    rw [hvictim] at halarm
    exact hretimed halarm
  | some victim =>
    rw [hvictim] at halarm
    exact hretimed (alarm_of_disowned halarm)

/-- A fired timer is set anew for the entry that had it. -/
theorem owner_of_expire (hkeyed : c.contents.WellKeyed) {id : TimerId} {other : String}
    (halive : (c.expire id other).isClosed = false)
    (halarm : (c.expire id other).expiry.alarms[key]? = some alarm) :
    ∃ old, c.expiry.alarms[key]? = some old ∧ old.owner = alarm.owner := by
  have hkept (h : (c.expiry.acknowledge other id).2.alarms[key]? = some alarm) :
      ∃ old, c.expiry.alarms[key]? = some old ∧ old.owner = alarm.owner := by
    rw [Expiry.alarms_acknowledge] at h
    split at h
    · cases h
    · exact ⟨alarm, h, rfl⟩
  rw [(expiry_expire hkeyed halive).1] at halarm
  cases hearly : c.early? id other with
  | none =>
    rw [hearly] at halarm
    exact hkept halarm
  | some t =>
    rw [hearly] at halarm
    dsimp only at halarm
    by_cases heq : key = other
    · subst heq
      have howner := (Option.filter_eq_some_iff.mp hearly).1
      rw [Expiry.acknowledge_fst] at howner
      obtain ⟨old, hold, rfl⟩ := Option.map_eq_some_iff.mp howner
      exact ⟨old, (Option.filter_eq_some_iff.mp hold).1, (Expiry.owner_of_renew halarm).symm⟩
    · rw [Expiry.alarms_renew_of_ne _ _ _ _ _ heq] at halarm
      exact hkept halarm

end Cache

namespace System

variable {V : Type} {s : System V} {key : String}

/-- The owner of a timer had one for the key before, or is linked. -/
theorem Coherent.owner_of_alarm (h : s.Coherent) {move : Move V}
    (halive : (s.step move).cache.isClosed = false) {alarm : Alarm}
    (halarm : (s.step move).cache.expiry.alarms[key]? = some alarm) :
    (∃ old, s.cache.expiry.alarms[key]? = some old ∧ old.owner = alarm.owner) ∨
      ((s.step move).cache.contents.handle? alarm.owner).isSome = true := by
  cases htimed : move.timed with
  | false =>
    rw [(s.step_of_not_timed htimed).2.1] at halarm
    exact Or.inl ⟨alarm, halarm, rfl⟩
  | true =>
    cases move with
    | lapse | wake => exact Or.inl ⟨alarm, halarm, rfl⟩
    | halt => cases halive
    | workWrite =>
      change s.cache.workWrite.isClosed = false at halive
      change s.cache.workWrite.expiry.alarms[key]? = some alarm at halarm
      change _ ∨ (s.cache.workWrite.contents.handle? alarm.owner).isSome = true
      cases hitems : s.cache.writes.items with
      | nil =>
        rw [Cache.workWrite_of_nil hitems] at halarm
        exact Or.inl ⟨alarm, halarm, rfl⟩
      | cons op rest =>
        rw [Cache.workWrite_of_cons hitems] at halive halarm ⊢
        cases op with
        | set t => exact (Cache.owner_of_upsert halive halarm).imp_left (⟨alarm, ·, rfl⟩)
        | update t => exact (Cache.owner_of_upsert halive halarm).imp_left (⟨alarm, ·, rfl⟩)
        | delete t =>
          change ((s.cache.received rest).bury t).expiry.alarms[key]? = some alarm at halarm
          rw [Cache.expiry_bury halive] at halarm
          have hold := Cache.alarm_of_disowned halarm
          exact Or.inl ⟨alarm, hold, rfl⟩
        | clear => simp [Cache.apply, Cache.wipe, Expiry.clear] at halarm
        | flush => exact Or.inl ⟨alarm, halarm, rfl⟩
    | workRead =>
      obtain ⟨reads, places, heq⟩ := s.cache.workRead_frame
      change s.cache.workRead.expiry.alarms[key]? = some alarm at halarm
      rw [heq] at halarm
      exact Or.inl ⟨alarm, halarm, rfl⟩
    | workFired =>
      change s.cache.workFired.isClosed = false at halive
      change s.cache.workFired.expiry.alarms[key]? = some alarm at halarm
      left
      cases hfired : s.cache.fired with
      | nil =>
        rw [Cache.workFired_of_nil hfired] at halarm
        exact ⟨alarm, halarm, rfl⟩
      | cons task rest =>
        rw [Cache.workFired_of_cons hfired] at halive halarm
        exact Cache.owner_of_expire (c := { s.cache with fired := rest }) h.keyed halive halarm
    | _ => cases htimed

/-! ## Linked as long as it has the slot -/

/-- An entry that has a slot after a move is linked if it was before. -/
theorem Arranged.stays_listed (h : s.Arranged) {move : Move V}
    (hfits : (s.step move).cache.recency.Fitting) {t : Serial}
    (hslot : (s.step move).cache.contents.occupant? key = some t)
    (ht : t ∈ s.cache.recency.toList) : t ∈ (s.step move).cache.recency.toList := by
  cases move with
  | store other value ttl wait =>
    change t ∈ (s.cache.lodge other value ttl wait).2.recency.toList
    rw [(s.cache.lodge_frame other value ttl wait).2.2.1]
    exact ht
  | strandSet other value ttl =>
    rw [step_strandSet]
    exact ht
  | strandDelete other =>
    rw [step_strandDelete]
    exact ht
  | detach other =>
    rw [step_detach]
    exact ht
  | workWrite => exact (h.listed_workWrite hfits hslot).2 (Or.inl ht)
  | workRead => exact h.listed_workRead hfits ht
  | workFired => exact h.listed_workFired hfits hslot ht
  | _ =>
    rw [(s.step_of_distant rfl).2]
    exact ht

/-- An entry that was made does not get its slot back. -/
theorem Coherent.slot_of_made (h : s.Coherent) {move : Move V} {t : Serial}
    (hmade : s.cache.contents.keyOf t = some key)
    (hslot : (s.step move).cache.contents.occupant? key = some t) :
    s.cache.contents.occupant? key = some t := by
  by_contra hlost
  have hgone : s.cache.contents.Gone t := by
    refine ⟨Cache.keyOf_made (by rw [hmade]; exact nofun), fun other hother => ?_⟩
    obtain rfl := Option.some.inj ((h.keyed.keyOf_of_occupant hother).symm.trans hmade)
    exact hlost hother
  exact ((h.step_follows move).ages.gone t hgone).2 key hslot

/-- An entry that has a timer and the slot of the key is linked, as long as the arena fits. -/
def Armed (s : System V) : Prop :=
  s.cache.recency.Fitting → ∀ (key : String) (alarm : Alarm),
    s.cache.expiry.alarms[key]? = some alarm → s.cache.contents.occupant? key = some alarm.owner →
      alarm.owner ∈ s.cache.recency.toList

theorem Armed.step (harmed : s.Armed) (h : s.Working) {move : Move V}
    (halive : (s.step move).cache.isClosed = false) : (s.step move).Armed := by
  intro hfits key alarm halarm hslot
  rcases h.arranged.coherent.owner_of_alarm halive halarm with ⟨old, hold, howner⟩ | hlinked
  · -- The timer is older than the move. Its owner had the slot all along, as none comes back.
    rw [← howner] at hslot ⊢
    have hbefore := h.arranged.coherent.slot_of_made (h.filed key old hold) hslot
    exact h.arranged.stays_listed hfits hslot
      (harmed ((s.step_onward move).1.fitting hfits) key old hold hbefore)
  · obtain ⟨order, hkeeps⟩ := (h.arranged.step move).keeps hfits
    exact hkeeps.isSome_handle?_iff.mp hlinked

theorem Armed.run (harmed : s.Armed) (h : s.Working) {moves : List (Move V)}
    (halive : (s.run moves).cache.isClosed = false) : (s.run moves).Armed := by
  induction moves generalizing s with
  | nil => exact harmed
  | cons move rest ih =>
    have hnext := ((s.step move).run_onward rest).2 halive
    exact ih (harmed.step h hnext) (h.step hnext) halive

end System

end TimedCache
