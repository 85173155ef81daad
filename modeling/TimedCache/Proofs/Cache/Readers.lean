import TimedCache.Proofs.Cache.Moves
import TimedCache.Proofs.Readings

/-!
What readers see of a cache among callers. A look-up depends on the value and the stamp under the
key, the clock and the delay. Read as a plain map, the cache changes only where a caller stores or
deletes, where the worker evicts or clears, and where a timer removes an entry that no reader sees
any more.
-/

namespace TimedCache

theorem Clock.stampAfter_le (clock : Clock) (ttl : Span) {stamp : Nat}
    (h : clock.stampAfter ttl = some stamp) : stamp ≤ maxWord := by
  unfold stampAfter at h
  split at h
  · cases h
  · cases h
    exact satAdd_le _ _

namespace Contents

variable {V : Type}

/-- An entry that was made and has no slot; no slot will take it again. -/
def Gone (c : Contents V) (s : Serial) : Prop :=
  s < c.entries.size ∧ ∀ key, c.occupant? key ≠ some s

def Stamped (c : Contents V) : Prop :=
  ∀ s key value stamp, c.shown? s = some (key, value, some stamp) → stamp ≤ maxWord

theorem Gone.not_occupies {c : Contents V} {s : Serial} (h : c.Gone s) : c.occupies s = false := by
  rw [Bool.eq_false_iff]
  intro hocc
  obtain ⟨e, _, hs⟩ := occupies_iff.mp hocc
  exact h.2 e.key hs

/-- What every change of the contents leaves as it was. -/
structure Ages (c c' : Contents V) : Prop where
  wellKeyed : c'.WellKeyed
  gone : ∀ s, c.Gone s → c'.Gone s
  stamped : c.Stamped → c'.Stamped

variable {c c' : Contents V}

theorem Vacated.ages {gone : Option Serial} (h : Vacated c c' gone) : Ages c c' where
  wellKeyed := h.wellKeyed
  gone s hs := by
    refine ⟨?_, ?_⟩
    · rw [h.size_entries]
      exact hs.1
    · intro key hkey
      exact hs.2 key ((h.occupant_iff key s).mp hkey).1
  stamped hstamped s key value stamp hs := by
    rw [h.shown] at hs
    exact hstamped s key value stamp hs

namespace WellKeyed

theorem ages_takeKey (h : c.WellKeyed) (key : String) : Ages c (c.takeKey key).2 where
  wellKeyed := h.takeKey key
  gone s hs := by
    refine ⟨?_, ?_⟩
    · rw [entries_takeKey]
      exact hs.1
    · intro other hother
      rw [occupant?_takeKey] at hother
      split at hother
      · cases hother
      · exact hs.2 other hother
  stamped hstamped s other value stamp hs := by
    rw [shown?_takeKey] at hs
    exact hstamped s other value stamp hs

theorem gone_takeKey (h : c.WellKeyed) {key : String} {s : Serial}
    (hs : c.occupant? key = some s) : (c.takeKey key).2.Gone s := by
  refine ⟨?_, ?_⟩
  · rw [entries_takeKey]
    exact h.occupant_lt hs
  · intro other hother
    rw [occupant?_takeKey] at hother
    split at hother
    · cases hother
    · rename_i hne
      exact hne (h.key_unique hs hother)

theorem ages_clearSlots (c : Contents V) : Ages c c.clearSlots where
  wellKeyed := clearSlots
  gone s hs := by
    refine ⟨hs.1, ?_⟩
    intro key hkey
    rw [occupant?_clearSlots] at hkey
    cases hkey
  stamped hstamped s key value stamp hs := by
    rw [shown?_clearSlots] at hs
    exact hstamped s key value stamp hs

theorem ages_overwrite (h : c.WellKeyed) (s : Serial) (value : V) {stamp : Option Nat}
    (hstamp : ∀ moment, stamp = some moment → moment ≤ maxWord) :
    Ages c (c.modify s (·.overwrite value stamp)) where
  wellKeyed := h.modify s _ fun e => e.key_overwrite value stamp
  gone t ht := by
    refine ⟨?_, ?_⟩
    · rw [size_entries_modify]
      exact ht.1
    · intro key hkey
      exact ht.2 key hkey
  stamped hstamped t key shown moment ht := by
    unfold shown? at ht
    rw [entry?_modify] at ht
    split at ht
    · rw [Option.map_map, Option.map_eq_some_iff] at ht
      obtain ⟨e, _, hfields⟩ := ht
      exact hstamp moment (congrArg (·.2.2) hfields)
    · exact hstamped t key shown moment ht

theorem ages_insert (h : c.WellKeyed) (key : String) (value : V) {stamp : Option Nat}
    (hstamp : ∀ moment, stamp = some moment → moment ≤ maxWord) :
    Ages c ((c.create key value stamp).2.place c.entries.size) where
  wellKeyed := (h.create key value stamp).place _
  gone s hs := by
    refine ⟨?_, ?_⟩
    · rw [entries_place, size_entries_create]
      exact Nat.lt_succ_of_lt hs.1
    · intro other hother
      rw [occupant?_place_create] at hother
      split at hother
      · cases hother
        exact Nat.lt_irrefl _ hs.1
      · exact hs.2 other hother
  stamped hstamped s other shown moment hs := by
    rw [shown?_place] at hs
    unfold shown? at hs
    rw [entry?_create] at hs
    split at hs
    · rw [Option.map_some, Option.some.injEq] at hs
      exact hstamp moment (congrArg (·.2.2) hs)
    · exact hstamped s other shown moment hs

end WellKeyed

end Contents

namespace Cache

variable {V : Type}

theorem vacant_create {options : Options V} {clock : Clock} {c : Cache V}
    (h : create options clock = .ok c) (key : String) : c.contents.occupant? key = none := by
  obtain ⟨contents, hcontents, rfl⟩ := create_eq_ok h
  have hkeyed := Contents.wellKeyed_withShards hcontents
  rw [Option.eq_none_iff_forall_ne_some]
  intro s hs
  obtain ⟨e, he, _⟩ := hkeyed.keyed key s hs
  rw [Contents.entry?_withShards hcontents] at he
  cases he

theorem nextSerial_create {options : Options V} {clock : Clock} {c : Cache V}
    (h : create options clock = .ok c) : c.nextSerial = 0 := by
  obtain ⟨contents, hcontents, rfl⟩ := create_eq_ok h
  obtain ⟨slots, _, rfl⟩ := Contents.withShards_eq_ok hcontents
  rfl

theorem size_create {options : Options V} {clock : Clock} {c : Cache V}
    (h : create options clock = .ok c) : c.size = 0 := by
  have hvacant := vacant_create h
  obtain ⟨contents, hcontents, rfl⟩ := create_eq_ok h
  refine (Contents.wellKeyed_withShards hcontents).size_eq List.nodup_nil fun s => ?_
  simp only [List.not_mem_nil, false_iff, not_exists]
  intro key hs
  exact nomatch (hvacant key).symm.trans hs

theorem reading_create {options : Options V} {clock : Clock} {c : Cache V}
    (h : create options clock = .ok c) : c.contents.reading = fun _ => none := by
  funext key
  exact Contents.reading_of_vacant (vacant_create h key)

/-- The first value that is stored is taken, and gets an entry. -/
theorem lodge_of_create {options : Options V} {clock : Clock} {c : Cache V}
    (h : create options clock = .ok c) (key : String) (value : V) (ttl : Span) (wait : Bool) :
    (c.lodge key value ttl wait).2.contents = (c.created key value ttl).place c.nextSerial ∧
      (c.lodge key value ttl wait).2.writes.items = [.set c.nextSerial] := by
  have hvacant := vacant_create h key
  obtain ⟨contents, _, rfl⟩ := create_eq_ok h
  rw [lodge_of_vacant hvacant, if_pos (by cases wait <;> rfl)]
  exact ⟨rfl, rfl⟩

theorem lodge_create {options : Options V} {clock : Clock} {c : Cache V}
    (h : create options clock = .ok c) (key : String) (value : V) (ttl : Span) (wait : Bool) :
    (c.lodge key value ttl wait).2.contents.occupant? key = some c.nextSerial ∧
      (c.lodge key value ttl wait).2.writes.items = [.set c.nextSerial] := by
  obtain ⟨hcontents, hqueued⟩ := lodge_of_create h key value ttl wait
  refine ⟨?_, hqueued⟩
  rw [hcontents]
  exact (Contents.occupant?_place_create _ key value _ key).trans (if_pos rfl)

/-! ## Look-ups -/

theorem getWithStatus_fst (c : Cache V) (key : String) :
    (c.getWithStatus key).1 =
      c.contents.reading.answer c.clock.timestamp c.options.expireDelay key := by
  unfold getWithStatus Readings.answer Contents.reading
  cases c.contents.occupantEntry? key with
  | none => rfl
  | some e =>
    unfold Entry.statusAt
    obtain ⟨entryKey, value, stamp, node⟩ := e
    cases stamp with
    | none => rfl
    | some stamp =>
      dsimp only [Option.map_some]
      by_cases halive : c.clock.timestamp < stamp
      · simp only [if_pos halive]
      · simp only [if_neg halive]
        by_cases hstale : c.clock.timestamp < satAdd stamp c.options.expireDelay.millis
        · simp only [if_pos hstale]
        · simp only [if_neg hstale]

theorem get_fst (c : Cache V) (key : String) :
    (c.get key).1 = c.contents.reading.alive c.clock.timestamp c.options.expireDelay key := by
  have hanswer := c.getWithStatus_fst key
  unfold get Readings.alive
  rw [← hanswer]
  generalize c.getWithStatus key = result
  obtain ⟨⟨value, status⟩, c'⟩ := result
  cases status <;> rfl

/-! ## Changes -/

/-- How the next write operation changes what readers see: an eviction removes the key of the
evicted entry. -/
def writeChange (c : Cache V) : Change V :=
  match c.writes.items with
  | .set s :: _ | .update s :: _ =>
    match ((c.recency.add c.contents s).1).bind c.contents.entry? with
    | some evicted => .remove evicted.key
    | none => .keep
  | .clear :: _ => .empty
  | _ => .keep

/-- How the next fired timer changes what readers see. -/
def firedChange (c : Cache V) : Change V :=
  match c.fired with
  | (id, key) :: _ => if (c.fallen? id key).isSome then .remove key else .keep
  | [] => .keep

end Cache

namespace System

variable {V : Type}

/-- How a move changes what readers see. -/
def change (s : System V) : Move V → Change V
  | .store key value ttl wait =>
    if (s.cache.contents.reading key).isSome || s.cache.accepts wait then
      .put key value (s.cache.clock.stampAfter ttl)
    else .keep
  | .strandSet key value ttl => .put key value (s.cache.clock.stampAfter ttl)
  | .detach key | .strandDelete key => .remove key
  | .workWrite => s.cache.writeChange
  | .workFired => s.cache.firedChange
  | _ => .keep

def changes (s : System V) : List (Move V) → List (Change V)
  | [] => []
  | move :: rest => s.change move :: (s.step move).changes rest

/-- An entry of which the worker is told, or will be told, that it was deleted is gone. -/
structure Coherent (s : System V) : Prop where
  keyed : s.cache.contents.WellKeyed
  stamped : s.cache.contents.Stamped
  detached_gone : ∀ t ∈ s.detached, s.cache.contents.Gone t
  deleted_gone : ∀ t, .delete t ∈ s.cache.writes.items → s.cache.contents.Gone t

end System

namespace Contents

variable {V : Type} {c c' c'' : Contents V} {change : Change V}

/-- The second contents are the first after a change that readers see. -/
structure Follows (c c' : Contents V) (change : Change V) : Prop where
  ages : Ages c c'
  reading : c'.reading = change.apply c.reading

theorem Ages.trans (hfirst : Ages c c') (hsecond : Ages c' c'') : Ages c c'' where
  wellKeyed := hsecond.wellKeyed
  gone s hs := hsecond.gone s (hfirst.gone s hs)
  stamped h := hsecond.stamped (hfirst.stamped h)

namespace WellKeyed

theorem follows_refl (h : c.WellKeyed) : Follows c c .keep := ⟨(Vacated.refl h).ages, rfl⟩

/-- Eviction removes the key of the entry that it hands out, if it hands one out. -/
theorem follows_add (h : c.WellKeyed) (r : Recency) (s : Serial) :
    Follows c (r.add c s).2.2
      (match ((r.add c s).1).bind c.entry? with
        | some evicted => .remove evicted.key
        | none => .keep) := by
  obtain ⟨hvacated, hoccupied⟩ := Recency.add_vacated h r s
  refine ⟨hvacated.ages, ?_⟩
  cases hvictim : (r.add c s).1 with
  | none =>
    rw [hvictim] at hvacated
    exact hvacated.reading_eq (by simp) h
  | some victim =>
    obtain ⟨e, he, hs⟩ := occupies_iff.mp (hoccupied victim hvictim)
    rw [hvictim] at hvacated
    rw [Option.bind_some, he]
    exact hvacated.reading_remove h hs

theorem follows_remove (h : c.WellKeyed) (r : Recency) {s : Serial} {key : String}
    (hs : c.occupant? key = some s) : Follows c (r.remove c s).2.2 (.remove key) := by
  have hvacated := Recency.remove_vacated h r s
  exact ⟨hvacated.ages, hvacated.reading_remove h hs⟩

theorem follows_remove_gone (h : c.WellKeyed) (r : Recency) {s : Serial} (hs : c.Gone s) :
    Follows c (r.remove c s).2.2 .keep := by
  have hvacated := Recency.remove_vacated h r s
  refine ⟨hvacated.ages, hvacated.reading_eq ?_ h⟩
  rintro t ⟨rfl⟩
  exact hs.not_occupies

theorem follows_clear (h : c.WellKeyed) (r : Recency) :
    Follows c (r.clear c).2.clearSlots .empty := by
  have hvacated := Recency.clear_vacated h r
  refine ⟨hvacated.ages.trans (ages_clearSlots _), ?_⟩
  exact reading_clearSlots _

end WellKeyed

end Contents

namespace Cache

variable {V : Type} {c : Cache V}

open Contents in
theorem lodge_follows (h : c.contents.WellKeyed) (key : String) (value : V) (ttl : Span)
    (wait : Bool) :
    Follows c.contents (c.lodge key value ttl wait).2.contents
      (if (c.contents.reading key).isSome || c.accepts wait then
        .put key value (c.clock.stampAfter ttl)
      else .keep) := by
  have hstamp (moment : Nat) (hmoment : c.clock.stampAfter ttl = some moment) :=
    c.clock.stampAfter_le ttl hmoment
  rw [h.reading_isSome]
  cases hs : c.contents.occupant? key with
  | some s =>
    have hfollows : Follows c.contents (c.overwritten s value ttl)
        (.put key value (c.clock.stampAfter ttl)) :=
      ⟨h.ages_overwrite s value hstamp, h.reading_overwrite hs value _⟩
    rw [lodge_of_occupant hs]
    cases c.accepts wait with
    | true => exact hfollows
    | false => exact hfollows
  | none =>
    rw [lodge_of_vacant hs]
    have hages := h.ages_insert key value hstamp
    cases c.accepts wait with
    | true => exact ⟨hages, h.reading_insert key value _⟩
    | false =>
      have hvacated := hages.wellKeyed.vacated_vacate c.nextSerial
      exact ⟨hages.trans hvacated.ages, h.reading_refused hs value _⟩

theorem occupant?_written (c : Cache V) (key : String) (value : V) (ttl : Span) (other : String) :
    (c.written key value ttl).occupant? other =
      if key = other then some ((c.contents.occupant? key).getD c.nextSerial)
      else c.contents.occupant? other := by
  cases hs : c.contents.occupant? key with
  | some s =>
    rw [written_of_occupant hs]
    change c.contents.occupant? other = _
    split
    · rename_i heq
      rw [← heq, hs, Option.getD_some]
    · rfl
  | none =>
    rw [written_of_vacant hs]
    exact Contents.occupant?_place_create c.contents key value _ other

theorem written_keeps {key other : String} {t : Serial} (ht : c.contents.occupant? other = some t)
    (value : V) (ttl : Span) : (c.written key value ttl).occupant? other = some t := by
  rw [occupant?_written]
  split
  · rename_i heq
    rw [heq, ht, Option.getD_some]
  · exact ht

open Contents in
theorem written_follows (h : c.contents.WellKeyed) (key : String) (value : V) (ttl : Span) :
    Follows c.contents (c.written key value ttl) (.put key value (c.clock.stampAfter ttl)) := by
  have hstamp (moment : Nat) (hmoment : c.clock.stampAfter ttl = some moment) :=
    c.clock.stampAfter_le ttl hmoment
  cases hs : c.contents.occupant? key with
  | some s =>
    rw [written_of_occupant hs]
    exact ⟨h.ages_overwrite s value hstamp, h.reading_overwrite hs value _⟩
  | none =>
    rw [written_of_vacant hs]
    exact ⟨h.ages_insert key value hstamp, h.reading_insert key value _⟩

open Contents in
theorem workWrite_follows (h : c.contents.WellKeyed)
    (hdeleted : ∀ t, .delete t ∈ c.writes.items → c.contents.Gone t) :
    Follows c.contents c.workWrite.contents c.writeChange := by
  unfold writeChange
  cases hitems : c.writes.items with
  | nil =>
    rw [workWrite_of_nil hitems]
    exact h.follows_refl
  | cons op rest =>
    rw [workWrite_of_cons hitems, ((c.received rest).apply_aside op).contents]
    cases op with
    | set s => exact h.follows_add c.recency s
    | update s => exact h.follows_add c.recency s
    | delete s =>
      apply h.follows_remove_gone c.recency
      apply hdeleted
      rw [hitems]
      exact List.mem_cons_self
    | clear => exact h.follows_clear c.recency
    | flush => exact h.follows_refl

theorem occupant_of_fallen {id : TimerId} {key : String} {s : Serial}
    (h : c.fallen? id key = some s) :
    c.contents.occupant? key = some s ∧ ∃ e moment, c.contents.entry? s = some e ∧
      e.evictAt c.options.expireDelay = some moment ∧ moment ≤ c.clock.timestamp := by
  unfold fallen? at h
  obtain ⟨_, hcond⟩ := Option.filter_eq_some_iff.mp h
  rw [Bool.and_eq_true_iff, decide_eq_true_iff, Option.any_eq_true] at hcond
  obtain ⟨hs, moment, hmoment, hle⟩ := hcond
  obtain ⟨e, he, hevict⟩ := Option.bind_eq_some_iff.mp hmoment
  exact ⟨hs, e, moment, he, hevict, of_decide_eq_true hle⟩

open Contents in
theorem workFired_follows (h : c.contents.WellKeyed) :
    Follows c.contents c.workFired.contents c.firedChange := by
  unfold firedChange workFired
  cases hfired : c.fired with
  | nil => exact h.follows_refl
  | cons task rest =>
    obtain ⟨id, key⟩ := task
    dsimp only
    have hfallen : ({ c with fired := rest } : Cache V).fallen? id key = c.fallen? id key := rfl
    have haside := ({ c with fired := rest } : Cache V).expire_aside id key
    rw [hfallen] at haside
    rw [haside.contents]
    cases hs : c.fallen? id key with
    | none => exact h.follows_refl
    | some s =>
      obtain ⟨hoccupant, _⟩ := occupant_of_fallen hs
      exact h.follows_remove c.recency hoccupant

end Cache

namespace System

variable {V : Type} {s : System V}

open Contents in
theorem Coherent.step_follows (h : s.Coherent) (move : Move V) :
    Follows s.cache.contents (s.step move).cache.contents (s.change move) := by
  have hkeyed := h.keyed
  cases move with
  | look | board | askLoader | askBatchLoader | lapse | wake | pace | pause | unpause =>
    rw [(s.step_of_quiet rfl).1]
    exact hkeyed.follows_refl
  | store key value ttl wait => exact Cache.lodge_follows hkeyed key value ttl wait
  | strandSet key value ttl =>
    rw [step_strandSet]
    exact Cache.written_follows hkeyed key value ttl
  | strandDelete key =>
    rw [step_strandDelete]
    exact ⟨hkeyed.ages_takeKey key, reading_takeKey s.cache.contents key⟩
  | detach key =>
    rw [step_detach]
    exact ⟨hkeyed.ages_takeKey key, reading_takeKey s.cache.contents key⟩
  | sendDelete t =>
    rw [step_sendDelete]
    split
    · dsimp only
      split <;> exact hkeyed.follows_refl
    · exact hkeyed.follows_refl
  | offerDelete t =>
    rw [step_offerDelete]
    split
    · dsimp only
      split <;> exact hkeyed.follows_refl
    · exact hkeyed.follows_refl
  | clear =>
    rw [step_clear]
    dsimp only
    split <;> exact hkeyed.follows_refl
  | flush =>
    rw [step_flush]
    dsimp only
    split <;> exact hkeyed.follows_refl
  | halt => exact hkeyed.follows_refl
  | workWrite => exact Cache.workWrite_follows hkeyed h.deleted_gone
  | workRead =>
    obtain ⟨reads, places, heq⟩ := s.cache.workRead_frame
    change Follows s.cache.contents s.cache.workRead.contents .keep
    rw [heq]
    exact hkeyed.follows_refl
  | workFired => exact Cache.workFired_follows hkeyed

/-- No deletion is queued but for an entry that was detached. -/
theorem step_deleted (s : System V) (move : Move V) {t : Serial}
    (h : .delete t ∈ (s.step move).cache.writes.items) :
    .delete t ∈ s.cache.writes.items ∨ t ∈ s.detached := by
  cases move with
  | look | board | askLoader | askBatchLoader | lapse | wake | pace | pause | unpause =>
    rw [(s.step_of_quiet rfl).2.2.1] at h
    exact Or.inl h
  | store key value ttl wait =>
    obtain ⟨_, _, _, _, hitems⟩ := s.cache.lodge_frame key value ttl wait
    change .delete t ∈ (s.cache.lodge key value ttl wait).2.writes.items at h
    rcases hitems with heq | ⟨u, heq | heq⟩ <;> rw [heq] at h
    · exact Or.inl h
    · exact Or.inl (by simpa using h)
    · exact Or.inl (by simpa using h)
  | strandSet key value ttl =>
    rw [step_strandSet] at h
    exact Or.inl h
  | strandDelete key =>
    rw [step_strandDelete] at h
    exact Or.inl h
  | detach key =>
    rw [step_detach] at h
    exact Or.inl h
  | sendDelete u =>
    rw [step_sendDelete] at h
    split at h
    · rename_i hu
      dsimp only at h
      split at h
      · exact Or.inl h
      · rcases List.mem_append.mp h with hin | hin
        · exact Or.inl hin
        · cases List.mem_singleton.mp hin
          exact Or.inr hu
    · exact Or.inl h
  | offerDelete u =>
    rw [step_offerDelete] at h
    split at h
    · rename_i hu
      dsimp only at h
      split at h
      · exact Or.inl h
      · rcases List.mem_append.mp h with hin | hin
        · exact Or.inl hin
        · cases List.mem_singleton.mp hin
          exact Or.inr hu
    · exact Or.inl h
  | clear =>
    rw [step_clear] at h
    dsimp only at h
    split at h
    · exact Or.inl h
    · exact Or.inl (by simpa [Cache.queued] using h)
  | flush =>
    rw [step_flush] at h
    dsimp only at h
    split at h
    · exact Or.inl h
    · exact Or.inl (by simpa [Cache.queued] using h)
  | halt => cases h
  | workWrite =>
    change .delete t ∈ s.cache.workWrite.writes.items at h
    cases hitems : s.cache.writes.items with
    | nil =>
      rw [Cache.workWrite_of_nil hitems, hitems] at h
      cases h
    | cons op rest =>
      obtain ⟨haside, hwrites, _⟩ := Cache.workWrite_aside hitems
      have hin := haside.writes_subset h
      rw [hwrites] at hin
      exact Or.inl (List.mem_cons_of_mem op hin)
  | workRead =>
    obtain ⟨reads, places, heq⟩ := s.cache.workRead_frame
    change .delete t ∈ s.cache.workRead.writes.items at h
    rw [heq] at h
    exact Or.inl h
  | workFired =>
    obtain ⟨base, haside, hwrites, _⟩ := s.cache.workFired_aside
    have hin := haside.writes_subset h
    rw [hwrites] at hin
    exact Or.inl hin

/-- An entry is detached only by a deletion of its key. -/
theorem step_detached (s : System V) (move : Move V) {t : Serial}
    (h : t ∈ (s.step move).detached) :
    t ∈ s.detached ∨ ∃ key, move = .detach key ∧ s.cache.contents.occupant? key = some t := by
  cases move with
  | detach key =>
    rw [step_detach] at h
    rcases List.mem_append.mp h with hin | hin
    · exact Or.inr ⟨key, rfl, Option.mem_toList.mp hin⟩
    · exact Or.inl hin
  | sendDelete u =>
    rw [step_sendDelete] at h
    split at h
    · exact Or.inl (List.mem_of_mem_erase h)
    · exact Or.inl h
  | offerDelete u =>
    rw [step_offerDelete] at h
    split at h
    · exact Or.inl (List.mem_of_mem_erase h)
    · exact Or.inl h
  | _ => exact Or.inl h

theorem Coherent.step (h : s.Coherent) (move : Move V) : (s.step move).Coherent where
  keyed := (h.step_follows move).ages.wellKeyed
  stamped := (h.step_follows move).ages.stamped h.stamped
  detached_gone t ht := by
    rcases s.step_detached move ht with hold | ⟨key, rfl, hs⟩
    · exact (h.step_follows move).ages.gone t (h.detached_gone t hold)
    · rw [step_detach]
      exact h.keyed.gone_takeKey hs
  deleted_gone t ht := by
    apply (h.step_follows move).ages.gone
    rcases s.step_deleted move ht with hold | hold
    · exact h.deleted_gone t hold
    · exact h.detached_gone t hold

theorem coherent_create {options : Options V} {clock : Clock} {c : Cache V}
    (h : Cache.create options clock = .ok c) : ({ cache := c } : System V).Coherent := by
  obtain ⟨contents, hcontents, rfl⟩ := Cache.create_eq_ok h
  refine ⟨Contents.wellKeyed_withShards hcontents, ?_, by simp, by simp⟩
  intro s key value stamp hs
  unfold Contents.shown? at hs
  rw [Contents.entry?_withShards hcontents] at hs
  cases hs

theorem Coherent.run (h : s.Coherent) (moves : List (Move V)) : (s.run moves).Coherent :=
  run_preserves (fun _ move hs => hs.step move) h moves

/-- A run goes through the changes of its moves. -/
theorem Coherent.reading_run (h : s.Coherent) (moves : List (Move V)) :
    (s.run moves).cache.contents.reading =
      (s.changes moves).foldl Change.apply s.cache.contents.reading := by
  induction moves generalizing s with
  | nil => rfl
  | cons move rest ih =>
    rw [run_cons, ih (h.step move), (h.step_follows move).reading]
    rfl

theorem change_ne_put {move : Move V} {key : String} (h : move.storedKey? ≠ some key) (value : V)
    (stamp : Option Nat) : s.change move ≠ .put key value stamp := by
  intro hput
  unfold change at hput
  cases move with
  | store other =>
    dsimp only at hput
    split at hput
    · cases hput
      exact h rfl
    · cases hput
  | strandSet other =>
    cases hput
    exact h rfl
  | workWrite =>
    dsimp only at hput
    unfold Cache.writeChange at hput
    split at hput
    · split at hput <;> cases hput
    · split at hput <;> cases hput
    · cases hput
    · cases hput
  | workFired =>
    dsimp only at hput
    unfold Cache.firedChange at hput
    split at hput
    · split at hput <;> cases hput
    · cases hput
  | _ => cases hput

/-- What readers see under a key stays or vanishes, unless the key is stored. -/
theorem Coherent.reading_step_unwritten (h : s.Coherent) {key : String} {move : Move V}
    (hmove : move.storedKey? ≠ some key) :
    (s.step move).cache.contents.reading key = s.cache.contents.reading key ∨
      (s.step move).cache.contents.reading key = none := by
  rw [(h.step_follows move).reading]
  cases hchange : s.change move with
  | keep => exact Or.inl rfl
  | put other value stamp =>
    left
    refine if_neg ?_
    rintro rfl
    exact change_ne_put hmove value stamp hchange
  | remove other =>
    change (if _ then _ else _) = _ ∨ (if _ then _ else _) = _
    split
    · exact Or.inr rfl
    · exact Or.inl rfl
  | empty => exact Or.inr rfl

theorem Coherent.reading_run_unwritten (h : s.Coherent) {key : String} {moves : List (Move V)}
    (hmoves : ∀ move ∈ moves, move.storedKey? ≠ some key) :
    (s.run moves).cache.contents.reading key = s.cache.contents.reading key ∨
      (s.run moves).cache.contents.reading key = none := by
  induction moves generalizing s with
  | nil => exact Or.inl rfl
  | cons move rest ih =>
    have hstep := h.reading_step_unwritten (hmoves move List.mem_cons_self)
    have hrest := ih (h.step move) fun later hin => hmoves later (List.mem_cons_of_mem _ hin)
    rw [run_cons]
    rcases hrest with heq | hnone
    · rw [heq]
      exact hstep
    · exact Or.inr hnone

/-- A timer removes an entry only when no reader sees it any more. -/
theorem Coherent.answer_of_fired (h : s.Coherent) {key : String}
    (hchange : s.change .workFired = .remove key) :
    (s.cache.contents.reading.answer s.cache.clock.timestamp s.cache.options.expireDelay key).2
      = .notExist := by
  change s.cache.firedChange = _ at hchange
  unfold Cache.firedChange at hchange
  split at hchange
  · rename_i id fired rest _
    split at hchange
    · rename_i hsome
      cases hchange
      obtain ⟨t, ht⟩ := Option.isSome_iff_exists.mp hsome
      obtain ⟨hs, e, moment, he, hevict, hle⟩ := Cache.occupant_of_fallen ht
      obtain ⟨stamp, hstamp, hmoment⟩ := Option.map_eq_some_iff.mp hevict
      have hshown : s.cache.contents.shown? t = some (e.key, e.value, some stamp) := by
        unfold Contents.shown?
        rw [he, ← hstamp]
        rfl
      have hword := h.stamped t e.key e.value stamp hshown
      have hreading : s.cache.contents.reading key = some (e.value, some stamp) := by
        rw [Contents.reading_of_occupant hs, hshown]
        rfl
      have hbefore := le_satAdd_left hword s.cache.options.expireDelay.millis
      unfold Readings.answer
      rw [hreading]
      dsimp only
      rw [if_neg (by omega), if_neg (by omega)]
    · cases hchange
  · cases hchange

/-- Readers answer as a plain map would that goes through the changes of the moves so far, and a
timer removes a key only when its answer is that there is nothing. -/
theorem lookups_answer_as_plain_map {options : Options V} {clock : Clock} {c : Cache V}
    (h : Cache.create options clock = .ok c) (moves : List (Move V)) :
    let s := ({ cache := c } : System V).run moves
    let m := (({ cache := c } : System V).changes moves).foldl Change.apply fun _ => none
    let now := s.cache.clock.timestamp
    (∀ key, (s.cache.getWithStatus key).1 = m.answer now options.expireDelay key ∧
      (s.cache.get key).1 = m.alive now options.expireDelay key) ∧
    ∀ key, s.change .workFired = .remove key →
      (m.answer now options.expireDelay key).2 = .notExist := by
  intro s m now
  have hcoherent := (coherent_create h).run moves
  have hempty : c.contents.reading = fun _ => none := Cache.reading_create h
  have hm : s.cache.contents.reading = m := by
    have hrun := (coherent_create h).reading_run moves
    rw [show ({ cache := c } : System V).cache.contents.reading = _ from hempty] at hrun
    exact hrun
  have hoptions : s.cache.options = options := by
    have hrun := run_options ({ cache := c } : System V) moves
    exact hrun.trans (Cache.options_create h)
  rw [← hm, ← hoptions]
  refine ⟨?_, ?_⟩
  · intro key
    exact ⟨s.cache.getWithStatus_fst key, s.cache.get_fst key⟩
  · intro key hchange
    exact hcoherent.answer_of_fired hchange

/-- A value is stale to readers from its stamp on, also while the worker has not linked it yet. -/
theorem lookups_answer_as_plain_map_stale :
    ∃ c : Cache Nat, Cache.create { expireDelay := .ofMillis 5 } { unix := 0 } = .ok c ∧
      ((({ cache := c } : System Nat).run
        [.store "a" 1 (.ofMillis 10) false, .lapse 12 12]).cache.getWithStatus "a").1 =
          (some 1, .expired) := by
  let options : Options Nat := { expireDelay := .ofMillis 5 }
  have hshards : options.shards ≤ Store.maxShards := by decide
  obtain ⟨c, hc⟩ := Cache.exists_create hshards { unix := 0 }
  refine ⟨c, hc, ?_⟩
  have hplain := ((lookups_answer_as_plain_map hc
    [.store "a" 1 (.ofMillis 10) false, .lapse 12 12]).1 "a").1
  obtain ⟨contents, _, heq⟩ := Cache.create_eq_ok hc
  have haccepts : c.accepts false = true := by
    rw [heq]
    rfl
  have hclock : c.clock = { unix := 0 } := by rw [heq]
  have hput : ({ cache := c } : System Nat).change (.store "a" 1 (.ofMillis 10) false) =
      .put "a" 1 (some 10) := by
    unfold change
    dsimp only
    rw [haccepts, hclock, Bool.or_true, if_pos rfl]
    rfl
  have hnow : (({ cache := c } : System Nat).run
      [.store "a" 1 (.ofMillis 10) false, .lapse 12 12]).cache.clock.timestamp = 12 := by
    have hlodge := (c.lodge_frame "a" 1 (.ofMillis 10) false).2.1
    change ((c.lodge "a" 1 (.ofMillis 10) false).2.clock.lapse 12 12).timestamp = 12
    rw [hlodge, hclock]
    rfl
  have hreading : (({ cache := c } : System Nat).changes
      [.store "a" 1 (.ofMillis 10) false, .lapse 12 12]).foldl Change.apply (fun _ => none) "a" =
        some (1, some 10) := by
    unfold changes
    rw [hput]
    change (if "a" = "a" then some (1, some 10) else none) = some (1, some 10)
    exact if_pos rfl
  have hdelay : satAdd 10 options.expireDelay.millis = 15 := by decide
  rw [hplain, hnow]
  unfold Readings.answer
  rw [hreading]
  dsimp only
  rw [hdelay]
  simp

end System

end TimedCache
