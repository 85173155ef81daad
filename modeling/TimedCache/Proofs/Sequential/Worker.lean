import TimedCache.Proofs.Sequential.Timers
import TimedCache.Proofs.Sequential.Tracking

/-!
What the worker does about a record, when no callback fails: list, timers and log change as the
record says.
-/

namespace TimedCache

namespace Cache

variable {V : Type} {c : Cache V} {records : List (Record V)} {r : Record V}

theorem announce_eq (c : Cache V) {hook : Option Hook} (reason : Departure)
    (hshown : c.contents.Shows r)
    (htame : ∀ callback, hook = some callback → ∀ key, callback.fails key = false) :
    c.announce hook reason r.serial =
      { c with log := c.log ++ (r.told hook reason).toArray } := by
  obtain ⟨e, he, hkey, hvalue, _⟩ := hshown.entry
  unfold announce Record.told
  rw [he]
  cases hook with
  | none => simp
  | some callback =>
    dsimp only
    rw [htame callback rfl, hkey, hvalue]
    simp [Cache.record]

theorem schedule_eq (hshown : c.contents.Shows r) (hlast : c.expiry.atLastTick = false) :
    c.schedule r.serial =
      { c with
        expiry := c.expiry.renew c.clock r.key r.serial
          (r.stamp.map fun stamp => satAdd stamp c.options.expireDelay.millis) } := by
  obtain ⟨e, he, hkey, _, hstamp⟩ := hshown.entry
  unfold schedule Entry.evictAt
  rw [he]
  dsimp only
  rw [hstamp, hkey, hlast]
  cases r.stamp <;> rfl

theorem retire_eq (hshown : c.contents.Shows r) (htame : c.options.Tame) :
    c.retire r.serial =
      { c with
        expiry := (c.expiry.removeOwned r.key r.serial).2, counters := c.counters.eviction
        log := c.log ++ (r.told c.options.onDelete .evicted).toArray } := by
  obtain ⟨e, he, hkey, _⟩ := hshown.entry
  unfold retire
  rw [he]
  dsimp only
  rw [hkey]
  exact announce_eq _ .evicted hshown fun hook heq => htame hook (Or.inl heq)

theorem bury_of_shown (hshown : (c.removed r.serial).contents.Shows r) (htame : c.options.Tame) :
    c.bury r.serial =
      { c.removed r.serial with
        expiry := (c.expiry.removeOwned r.key r.serial).2
        log := c.log ++ (r.told c.options.onDelete .deleted).toArray } := by
  obtain ⟨e, he, hkey, _⟩ := hshown.entry
  rw [bury_eq, he]
  dsimp only
  rw [hkey]
  exact announce_eq _ .deleted hshown fun hook heq => htame hook (Or.inl heq)

/-- Once the entry of a record is linked, its timer is renewed. -/
theorem timed_eq (h : Holds (c.added r.serial).contents (c.added r.serial).recency records)
    (hr : r ∈ records) (hlast : c.expiry.atLastTick = false) :
    c.timed r.serial =
      { c.added r.serial with
        expiry := c.expiry.renew c.clock r.key r.serial
          (r.stamp.map fun stamp => satAdd stamp c.options.expireDelay.millis) } := by
  obtain ⟨place, hplace, _⟩ := h.handle hr
  unfold timed
  rw [h.occupies hr, hplace, Option.isSome_some, Bool.and_self, if_pos rfl]
  exact schedule_eq (h.shown r hr) hlast

/-! ## Timers that fire -/

section Expire

variable {id : TimerId} (howner : (c.expiry.acknowledge r.key id).1 = some r.serial)
include howner

/-- A timer that has fired is forgotten, and nothing else happens, if readers do not find the entry
that it was set for, or find it without an end. -/
theorem expire_of_spent (hspent : c.contents.occupant? r.key = some r.serial →
      ∃ found, c.contents.Shows found ∧ found.serial = r.serial ∧ found.stamp = none) :
    c.expire id r.key = { c with expiry := (c.expiry.acknowledge r.key id).2 } := by
  unfold expire
  rw [show c.expiry.acknowledge r.key id =
    (some r.serial, (c.expiry.acknowledge r.key id).2) from Prod.ext howner rfl]
  dsimp only
  split
  · rename_i hslot
    obtain ⟨found, hshown, hserial, hnone⟩ := hspent hslot
    obtain ⟨e, he, _, _, hsame⟩ := hshown.entry
    rw [← hserial, he, Option.bind_some, Entry.evictAt, hsame, hnone]
    rfl
  · rfl

/-- It removes the entry once the end has come. -/
theorem expire_of_due (hslot : c.contents.occupant? r.key = some r.serial)
    (hshown : c.contents.Shows r) (hkeyed : c.contents.WellKeyed)
    (hlinked : (c.recency.remove c.contents r.serial).1 = some r.serial) {stamp : Nat}
    (hstamp : r.stamp = some stamp)
    (hend : satAdd stamp c.options.expireDelay.millis ≤ c.clock.timestamp)
    (htame : c.options.Tame) :
    c.expire id r.key =
      { c.removed r.serial with
        expiry := (c.expiry.acknowledge r.key id).2, counters := c.counters.expiration
        log := c.log ++ (r.told c.options.onExpire .expired).toArray } := by
  obtain ⟨e, he, _, _, hsame⟩ := hshown.entry
  have hshown' : (c.removed r.serial).contents.Shows r :=
    ((Recency.remove_vacated hkeyed c.recency r.serial).shown r.serial).trans hshown
  have hremoved : c.removed r.serial = { c with
      recency := (c.recency.remove c.contents r.serial).2.1
      contents := (c.recency.remove c.contents r.serial).2.2 } := rfl
  unfold expire
  rw [show c.expiry.acknowledge r.key id =
    (some r.serial, (c.expiry.acknowledge r.key id).2) from Prod.ext howner rfl]
  dsimp only
  rw [if_pos hslot, he, Option.bind_some, Entry.evictAt, hsame, hstamp, Option.map_some]
  dsimp only
  rw [if_pos hend]
  generalize c.recency.remove c.contents r.serial = result at hlinked hremoved ⊢
  obtain ⟨gone, recency, contents⟩ := result
  cases (show gone = some r.serial from hlinked)
  rw [hremoved] at hshown' ⊢
  dsimp only at hshown' ⊢
  exact announce_eq _ .expired hshown' fun hook heq => htame hook (Or.inr heq)

/-- It is set again if the end is to come. -/
theorem expire_of_later (hslot : c.contents.occupant? r.key = some r.serial)
    (hshown : c.contents.Shows r) {stamp : Nat} (hstamp : r.stamp = some stamp)
    (hend : ¬ satAdd stamp c.options.expireDelay.millis ≤ c.clock.timestamp)
    (hlast : c.expiry.atLastTick = false) :
    c.expire id r.key =
      { c with
        expiry := (c.expiry.acknowledge r.key id).2.renew c.clock r.key r.serial
          (r.stamp.map fun stamp => satAdd stamp c.options.expireDelay.millis) } := by
  obtain ⟨e, he, _, _, hsame⟩ := hshown.entry
  have hlast' : (c.expiry.acknowledge r.key id).2.atLastTick = false := by
    unfold Expiry.atLastTick
    rw [Expiry.acknowledge_frame]
    exact hlast
  unfold expire
  rw [show c.expiry.acknowledge r.key id =
    (some r.serial, (c.expiry.acknowledge r.key id).2) from Prod.ext howner rfl]
  dsimp only
  rw [if_pos hslot, he, Option.bind_some, Entry.evictAt, hsame, hstamp, Option.map_some]
  dsimp only
  rw [if_neg hend]
  have hset := schedule_eq (c := { c with expiry := (c.expiry.acknowledge r.key id).2 }) hshown hlast'
  rw [hstamp] at hset
  exact hset

end Expire

end Cache

end TimedCache
