import TimedCache.Proofs.Cache.Deletions
import TimedCache.Proofs.Cache.Linking
import TimedCache.Proofs.Cache.Outgrown
import TimedCache.Proofs.Expiry.Requests

/-!
Operations that come too late. By the time the worker takes an operation, the entry may have lost
its slot to another entry of the same key, which is listed and timed by key as well. Slots, places
and timers are told apart by entry, so such an operation concerns its own entry's place and timer
and nothing else.
-/

namespace TimedCache

namespace Contents

variable {V : Type}

/-- An entry without a slot has none to lose. -/
theorem vacate_of_not_occupies {c : Contents V} {s : Serial} (h : c.occupies s = false) :
    (c.vacate s).2 = c := by
  unfold occupies at h
  cases he : c.entry? s with
  | none => rw [vacate_eq_of_none he]
  | some e =>
    have hkept : (c.slots.takeIf e.key (· == s)).2 = c.slots := by
      rw [he] at h
      change (c.slots.get? e.key == some s) = false at h
      unfold Store.takeIf
      cases hslot : c.slots.get? e.key with
      | none => rfl
      | some holder =>
        rw [hslot] at h
        dsimp only
        rw [if_neg (by simpa using h)]
    rw [vacate_eq he, hkept]

end Contents

namespace Recency

variable {V : Type} {r : Recency} {c : Contents V} {order : List Spot} {s : Serial}

theorem filter_erase {listed : List Serial} (h : listed.Nodup) (s : Serial) :
    (listed.erase s).filter (· ≠ s) = listed.filter (· ≠ s) := by
  rw [h.erase_eq_filter, List.filter_filter]
  refine List.filter_congr fun t _ => ?_
  simp

/-- An entry that has lost its slot is moved to the front, if it is listed. -/
theorem Keeps.add_late (h : r.Keeps c order) (hlost : c.occupies s = false) :
    ∃ r', r.add c s = (none, r', c) ∧ r'.toList.filter (· ≠ s) = r.toList.filter (· ≠ s) ∧
      (s ∉ r.toList → r' = r) := by
  by_cases hlisted : s ∈ r.toList
  · obtain ⟨i, hmem⟩ := h.mem_toList.mp hlisted
    obtain ⟨before, after, rfl⟩ := List.append_of_mem hmem
    refine ⟨_, h.add_of_linked, ?_, fun hout => absurd hlisted hout⟩
    rw [h.moveToFront_listed, List.filter_cons_of_neg (by simp), filter_erase h.nodup_toList]
  · exact ⟨r, h.add_of_gone (h.not_listed hlisted) hlost, rfl, fun _ => rfl⟩

/-- An entry that has lost its slot is unlinked, if it is listed. -/
theorem Keeps.remove_late (h : r.Keeps c order) (hlost : c.occupies s = false) :
    (r.remove c s).2.2 = c ∨ (r.remove c s).2.2 = c.unlink s := by
  unfold Recency.remove
  dsimp only
  rw [Contents.vacate_of_not_occupies hlost]
  by_cases hlisted : s ∈ r.toList
  · obtain ⟨i, hmem⟩ := h.mem_toList.mp hlisted
    obtain ⟨node, hnode, hentry⟩ := h.node_of_mem hmem
    rw [h.resolve_iff.mpr hmem]
    exact Or.inr (congrArg (·.2.2) (release_eq hnode hentry c))
  · rw [h.resolve_eq_none (h.not_listed hlisted)]
    exact Or.inl rfl

end Recency

namespace Cache

variable {V : Type} {c : Cache V} {s : Serial} {e : Entry V}

/-- What an operation leaves as it was that comes too late for its entry. -/
structure Spares (c c' : Cache V) (s : Serial) : Prop where
  slots : c'.contents.slots = c.contents.slots
  shown : ∀ t, c'.contents.shown? t = c.contents.shown? t
  others : ∀ t, t ≠ s → c'.contents.entry? t = c.contents.entry? t
  counters : c'.counters = c.counters
  evicted : c'.told .evicted = c.told .evicted
  order : c'.recency.toList.filter (· ≠ s) = c.recency.toList.filter (· ≠ s)

/-- The timers of all other owners stay as they were, those that have fired included. -/
structure SparesTimers (c c' : Cache V) (s : Serial) : Prop where
  fired : c'.fired = c.fired
  alarms : ∀ (key : String) (owner : Serial) (id : TimerId), owner ≠ s →
    (c'.expiry.alarms[key]? = some { id, owner } ↔ c.expiry.alarms[key]? = some { id, owner })
  pending : ∀ (key : String) (owner : Serial) (id : TimerId) (deadline : Nat), owner ≠ s →
    (c'.expiry.Pending key owner id deadline ↔ c.expiry.Pending key owner id deadline)

theorem Spares.listed {recency : Recency}
    (horder : recency.toList.filter (· ≠ s) = c.recency.toList.filter (· ≠ s)) :
    c.Spares { c with recency } s where
  slots := rfl
  shown _ := rfl
  others _ _ := rfl
  counters := rfl
  evicted := rfl
  order := horder

theorem SparesTimers.listed (c : Cache V) (recency : Recency) (s : Serial) :
    c.SparesTimers { c with recency } s where
  fired := rfl
  alarms _ _ _ _ := Iff.rfl
  pending _ _ _ _ _ := Iff.rfl

/-- Linking an entry that has lost its slot changes the list at most, and nothing at all if the entry
is not listed. -/
theorem upsert_late {order : List Recency.Spot} (h : c.recency.Keeps c.contents order)
    (hlost : c.contents.occupies s = false) :
    ∃ recency, c.upsert s = { c with recency } ∧
      recency.toList.filter (· ≠ s) = c.recency.toList.filter (· ≠ s) ∧
      (s ∉ c.recency.toList → recency = c.recency) := by
  obtain ⟨recency, hadd, horder, hsame⟩ := h.add_late hlost
  refine ⟨recency, ?_, horder, hsame⟩
  rw [upsert_eq]
  unfold timed added
  rw [hadd]
  dsimp only
  rw [hlost, Bool.false_and, if_neg Bool.false_ne_true]

theorem announce_of_entry (he : c.contents.entry? s = some e) (hook : Hook) (reason : Departure) :
    c.announce (some hook) reason s =
      if hook.fails e.key then (c.record (.left reason s e.key e.value)).halt
      else c.record (.left reason s e.key e.value) := by
  unfold announce
  rw [he]

/-- A callback that fails for the entry's key stops the worker, and nothing else does. -/
theorem isClosed_bury (hkeyed : c.contents.WellKeyed) (he : c.contents.entry? s = some e)
    (halive : c.isClosed = false) :
    (c.bury s).isClosed = true ↔
      ∃ hook, c.options.onDelete = some hook ∧ hook.fails e.key = true := by
  have hname : (c.removed s).contents.keyOf s = some e.key :=
    (congrFun (Recency.remove_vacated hkeyed c.recency s).keyOf_eq s).trans
      (Contents.keyOf_of_entry he)
  obtain ⟨e', he', hkey⟩ := Option.map_eq_some_iff.mp hname
  rw [bury_eq, he']
  dsimp only
  generalize hd : ({ c.removed s with
    expiry := ((c.removed s).expiry.removeOwned e'.key s).2 } : Cache V) = d
  have hopen : d.isClosed = false := hd ▸ halive
  have hentry : d.contents.entry? s = some e' := hd ▸ he'
  cases c.options.onDelete with
  | none => simpa [announce] using hopen
  | some hook =>
    rw [announce_of_entry hentry, hkey]
    split
    · rename_i hfails
      exact iff_of_true rfl ⟨hook, rfl, hfails⟩
    · rename_i hfine
      refine iff_of_false (fun hclosed => ?_) ?_
      · exact absurd (hopen.symm.trans hclosed) Bool.noConfusion
      · rintro ⟨_, ⟨⟩, hfails⟩
        exact hfine hfails

/-- The worker ends with its timers where the callback fails. -/
theorem alarms_of_closed (halive : c.isClosed = false) (hclosed : (c.bury s).isClosed = true)
    (key : String) : (c.bury s).expiry.alarms[key]? = none := by
  rcases c.bury_halts s with hsame | ⟨last, hlast⟩
  · exact absurd (hclosed.symm.trans (hsame.trans halive)) Bool.noConfusion
  · rw [hlast]
    exact Std.HashMap.getElem?_empty

/-- Burying an entry that has lost its slot leaves slots, values and the rest of the list as they
were. -/
theorem Spares.bury {order : List Recency.Spot} (h : c.recency.Keeps c.contents order)
    (hlost : c.contents.occupies s = false) : c.Spares (c.bury s) s := by
  have haside := c.bury_aside s
  have hcharges := c.bury_charges s
  have hcontents : (c.bury s).contents = c.contents ∨ (c.bury s).contents = c.contents.unlink s := by
    rw [haside.contents]
    exact h.remove_late hlost
  refine ⟨?_, ?_, ?_, hcharges.counters, ?_, ?_⟩
  · rcases hcontents with heq | heq <;> rw [heq]
    rfl
  · rcases hcontents with heq | heq <;> rw [heq]
    · exact fun _ => rfl
    · exact c.contents.shown?_unlink s
  · rcases hcontents with heq | heq <;> rw [heq]
    · exact fun _ _ => rfl
    · exact fun t ht => (Contents.entry?_modify _ _ _ _).trans (if_neg ht.symm)
  · unfold told
    rw [hcharges.notices, List.filter_append, List.map_append, Option.bind_some]
    unfold notice?
    split
    · cases (c.bury s).contents.entry? s <;> simp
    · simp
  · rw [haside.recency]
    change (c.recency.remove c.contents s).2.1.toList.filter (· ≠ s) = _
    rw [(h.remove s).2.1, Recency.filter_erase h.nodup_toList]

/-- Burying an entry leaves the timers of others alone, unless the callback stops the worker. -/
theorem SparesTimers.bury (htidy : c.expiry.Tidy c.fired) (hopen : (c.bury s).isClosed = false) :
    c.SparesTimers (c.bury s) s := by
  have hothers (key : String) (owner : Serial) (id : TimerId) (howner : owner ≠ s) :
      ((c.bury s).expiry.alarms[key]? = some { id, owner } ↔
        c.expiry.alarms[key]? = some { id, owner }) ∧
      ∀ deadline, (c.bury s).expiry.Pending key owner id deadline ↔
        c.expiry.Pending key owner id deadline := by
    rw [expiry_bury hopen]
    unfold disowned
    split
    · exact htidy.pending_removeOwned howner
    · exact ⟨Iff.rfl, fun _ => Iff.rfl⟩
  refine ⟨?_, fun key owner id howner => (hothers key owner id howner).1,
    fun key owner id deadline howner => (hothers key owner id howner).2 deadline⟩
  rcases (c.bury_aside s).queues with ⟨-, -, hfired, -⟩ | ⟨hwrites, -⟩
  · exact hfired
  · rw [isClosed, hwrites] at hopen
    cases hopen

end Cache

namespace System

variable {V : Type}

/-- Whatever happened before, an operation that the worker takes too late leaves the slots and the
order of the other entries as they were, and has nobody evicted. If the entry is not listed, storing
it late changes nothing at all. Once it is buried neither a place nor a timer of it is left. The
timers of the other owners stay as well, unless the callback fails for the entry's key: that ends the
worker, and all timers with it. -/
theorem late_ops_spare_others {options : Options V} {clock : Clock} {c : Cache V}
    (hc : Cache.create options clock = .ok c) {moves : List (Move V)} {s : System V}
    (hs : ({ cache := c } : System V).run moves = s) (halive : s.cache.isClosed = false)
    (hfits : s.cache.recency.Fitting) {t : Serial} {e : Entry V}
    (he : s.cache.contents.entry? t = some e)
    (hlost : s.cache.contents.occupant? e.key ≠ some t) (rest : List WriteOp) :
    let worker := s.cache.received rest
    let buried := worker.apply (.delete t)
    (∀ op, op = .set t ∨ op = .update t →
      worker.Spares (worker.apply op) t ∧ worker.SparesTimers (worker.apply op) t ∧
      worker.apply op = { worker with recency := (worker.apply op).recency } ∧
      (t ∉ worker.recency.toList → worker.apply op = worker)) ∧
    worker.Spares buried t ∧ t ∉ buried.recency.toList ∧
    (∀ (key : String) (alarm : Alarm),
      buried.expiry.alarms[key]? = some alarm → alarm.owner ≠ t) ∧
    ((∀ hook, options.onDelete = some hook → hook.fails e.key = false) →
      worker.SparesTimers buried t ∧ buried.isClosed = false) ∧
    ((∃ hook, options.onDelete = some hook ∧ hook.fails e.key = true) →
      buried.isClosed = true ∧ ∀ key : String, buried.expiry.alarms[key]? = none) := by
  intro worker buried
  have hworking : s.Working := hs ▸ (working_create hc).run (hs ▸ halive)
  have hkeyed := hworking.arranged.coherent.keyed
  have hoptions : worker.options = options := by
    rw [show worker.options = s.cache.options from rfl, ← hs, run_options, Cache.options_create hc]
  have hopen : worker.isClosed = false := halive
  have hgone : worker.contents.occupies t = false := by
    rw [Bool.eq_false_iff, ne_eq, Contents.occupies_iff]
    rintro ⟨e', he', hslot⟩
    cases he.symm.trans he'
    exact hlost hslot
  obtain ⟨order, hkeeps⟩ := hworking.arranged.keeps hfits
  have hkept : worker.recency.Keeps worker.contents order := hkeeps
  have hburied : (worker.bury t).recency.toList = worker.recency.toList.erase t :=
    (congrArg Recency.toList (worker.bury_aside t).recency).trans (hkept.remove t).2.1
  have hcloses : buried.isClosed = true ↔
      ∃ hook, options.onDelete = some hook ∧ hook.fails e.key = true := by
    rw [← hoptions]
    exact Cache.isClosed_bury hkeyed he hopen
  refine ⟨fun op hop => ?_, .bury hkept hgone, ?_, ?_, fun hnever => ?_, fun hfails => ?_⟩
  · obtain ⟨recency, heq, horder, hsame⟩ := Cache.upsert_late hkept hgone
    have happly : worker.apply op = { worker with recency } := by
      rcases hop with rfl | rfl <;> exact heq
    rw [happly]
    refine ⟨.listed horder, .listed worker recency t, rfl, fun hout => ?_⟩
    rw [hsame hout]
  · change t ∉ (worker.bury t).recency.toList
    rw [hburied]
    exact hkept.nodup_toList.not_mem_erase
  · intro key alarm halarm
    change (worker.bury t).expiry.alarms[key]? = some alarm at halarm
    cases hclosed : (worker.bury t).isClosed with
    | false =>
      exact Cache.Filed.untimed_bury (c := worker) hworking.filed hkeyed
        (Contents.keyOf_of_entry he) hclosed halarm
    | true => cases (Cache.alarms_of_closed hopen hclosed key).symm.trans halarm
  · have hgoes : buried.isClosed = false := by
      rw [Bool.eq_false_iff]
      intro hclosed
      obtain ⟨hook, hhook, hfails⟩ := hcloses.mp hclosed
      cases (hnever hook hhook).symm.trans hfails
    exact ⟨.bury hworking.clockwork.tidy hgoes, hgoes⟩
  · have hclosed := hcloses.mpr hfails
    exact ⟨hclosed, Cache.alarms_of_closed hopen hclosed⟩

/-- The entry of a key is deleted and the key stored anew, and the worker links the new entry before
it hears of the deletion. -/
theorem late_ops_spare_others_renewed :
    ∃ (c : Cache Nat) (s : System Nat),
      ({ cache := c } : System Nat).run
        [.store "k" 1 (.ofMillis 100) false, .detach "k", .store "k" 2 (.ofMillis 100) false,
          .workWrite, .workWrite] = s ∧
      c.nextSerial ∈ s.detached ∧
      s.cache.Spares (s.cache.apply (.delete c.nextSerial)) c.nextSerial ∧
      s.cache.SparesTimers (s.cache.apply (.delete c.nextSerial)) c.nextSerial ∧
      (s.cache.apply (.delete c.nextSerial)).isClosed = false := by
  let options : Options Nat := { capacity := 1, onDelete := some {} }
  obtain ⟨c, hc⟩ := Cache.exists_create (show options.shards ≤ _ by decide) { unix := 0 }
  let moves : List (Move Nat) := [.store "k" 1 (.ofMillis 100) false, .detach "k",
    .store "k" 2 (.ofMillis 100) false, .workWrite, .workWrite]
  obtain ⟨s, hs⟩ : ∃ s, ({ cache := c } : System Nat).run moves = s := ⟨_, rfl⟩
  have htame : options.Tame := by
    rintro hook (hhook | hhook) key <;> cases hhook
    rfl
  have halive : s.cache.isClosed = false := hs ▸ alive_of_tame hc htame (by decide) (by simp [moves])
  have hfits : s.cache.recency.Fitting := hs ▸ fitting_of_bounded hc (by decide) (by decide) moves
  have hdetached : s.detached = [c.nextSerial] := by
    rw [← hs]
    change (({ cache := (c.lodge "k" 1 (.ofMillis 100) false).2 } : System Nat).step
      (.detach "k")).detached = _
    rw [step_detach]
    dsimp only
    rw [(Cache.lodge_create hc "k" 1 (.ofMillis 100) false).1]
    rfl
  have hgone : s.cache.contents.Gone c.nextSerial :=
    (hs ▸ (coherent_create hc).run moves : s.Coherent).detached_gone _ (by simp [hdetached])
  obtain ⟨e, hmade⟩ : ∃ e, s.cache.contents.entry? c.nextSerial = some e :=
    ⟨_, Array.getElem?_eq_getElem hgone.1⟩
  obtain ⟨_, hspares, _, _, hgoes, _⟩ :=
    late_ops_spare_others hc hs halive hfits hmade (hgone.2 _) s.cache.writes.items
  exact ⟨c, s, hs, by simp [hdetached], hspares, hgoes fun hook hhook => htame hook (Or.inl hhook) _⟩

/-- An entry that is deleted before the worker links it: its insertion and its deletion are queued. -/
theorem run_store_detach {c : Cache V} {key : String} (hvacant : c.contents.occupant? key = none)
    (value : V) (ttl : Span) (haccepts : c.accepts false = true) (hopen : c.isClosed = false) :
    let told : Cache V := { c with
      contents := (((c.created key value ttl).place c.nextSerial).takeKey key).2 }
    told.contents.entry? c.nextSerial = some { key, value, expireAt := c.clock.stampAfter ttl } ∧
      told.contents.occupies c.nextSerial = false ∧
      ({ cache := c } : System V).run
        [.store key value ttl false, .detach key, .sendDelete c.nextSerial] =
          { cache := (told.queued (.set c.nextSerial)).queued (.delete c.nextSerial) } := by
  intro told
  let contents := (c.created key value ttl).place c.nextSerial
  have hslot : contents.occupant? key = some c.nextSerial :=
    (Contents.occupant?_place_create c.contents key value _ key).trans (if_pos rfl)
  have hentry : told.contents.entry? c.nextSerial =
      some { key, value, expireAt := c.clock.stampAfter ttl } := by
    refine (Contents.entry?_takeKey contents key _).trans ?_
    exact (Contents.entry?_place _ _ _).trans (Contents.entry?_created c.contents key value _)
  refine ⟨hentry, ?_, ?_⟩
  · rw [Bool.eq_false_iff, ne_eq, Contents.occupies_iff]
    rintro ⟨e, he, hown⟩
    cases hentry.symm.trans he
    rw [Contents.occupant?_takeKey, if_pos rfl] at hown
    cases hown
  have hlodge := Cache.lodge_of_vacant hvacant value ttl false
  rw [if_pos haccepts] at hlodge
  have hstored : ({ cache := c } : System V).step (.store key value ttl false) =
      { cache := ({ c with contents } : Cache V).queued (.set c.nextSerial) } :=
    congrArg (fun lodged => ({ cache := lodged.2 } : System V)) hlodge
  rw [run_cons, hstored]
  exact run_detach (s := { cache := ({ c with contents } : Cache V).queued (.set c.nextSerial) })
    hslot hopen

/-- The callback fails for a key whose entry is deleted before the worker links it: as the worker comes
to the deletion, the timer of another key is lost. And the deletion of an entry whose place has no
handle of its own takes the entry of the first place off the list, though it keeps its slot. -/
theorem others_harmed_by_delete :
    (∃ c : Cache Nat,
      Cache.create { capacity := 2, onDelete := some { fails := (· == "k") } } { unix := 0 } = .ok c ∧
      let s := ({ cache := c } : System Nat).run
        [.store "x" 1 (.ofMillis 1000) false, .workWrite, .store "k" 2 .zero false, .detach "k",
          .sendDelete 1, .workWrite]
      s.cache.isClosed = false ∧ s.cache.contents.keyOf 1 = some "k" ∧
        s.cache.contents.occupant? "k" = none ∧ s.cache.writes.items = [.delete 1] ∧
        s.cache.expiry.alarms["x"]? = some { id := 1, owner := 0 } ∧
        s.cache.workWrite.expiry.alarms["x"]? = none) ∧
    ∃ c : Cache Nat, Cache.create { capacity := 0 } { unix := 0 } = .ok c ∧
      let last := Recency.maxPlaces
      let s := ({ cache := c } : System Nat).run (outgrow last)
      s.cache.isClosed = false ∧ s.cache.contents.keyOf last = some (numbered last) ∧
        s.cache.contents.occupant? (numbered last) = none ∧ s.cache.writes.items = [.delete last] ∧
        s.cache.contents.occupant? (numbered 0) = some 0 ∧ 0 ∈ s.cache.recency.toList ∧
        s.cache.workWrite.contents.occupant? (numbered 0) = some 0 ∧
        0 ∉ s.cache.workWrite.recency.toList := by
  refine ⟨?_, ?_⟩
  swap
  · let options : Options Nat := { capacity := 0 }
    obtain ⟨c, hc⟩ := Cache.exists_create (show options.shards ≤ _ by decide) { unix := 0 }
    exact ⟨c, hc, outgrow_delists hc (by decide) (by decide)⟩
  let hook : Hook := { fails := (· == "k") }
  let options : Options Nat := { capacity := 2, onDelete := some hook }
  obtain ⟨c, hc⟩ := Cache.exists_create (show options.shards ≤ _ by decide) { unix := 0 }
  refine ⟨c, hc, ?_⟩
  intro s
  obtain ⟨recency, place, _, hrun⟩ := linked_first hc (by decide) "x" 1 (.ofMillis 1000) false
  obtain ⟨first, hfirst⟩ : ∃ first, ({ cache := c } : System Nat).run
    [.store "x" 1 (.ofMillis 1000) false, .workWrite] = { cache := first } := ⟨_, hrun⟩
  obtain ⟨halarm, hvacant, hnext, hidle, hopen, haccepts, hhook⟩ :
      first.expiry.alarms["x"]? = some { id := 1, owner := 0 } ∧
      first.contents.occupant? "k" = none ∧ first.nextSerial = 1 ∧ first.writes.items = [] ∧
      first.isClosed = false ∧ first.accepts false = true ∧ first.options.onDelete = some hook := by
    obtain ⟨_, hsize, _, hslots⟩ := Cache.contents_first hc "x" 1 (.ofMillis 1000) place
    obtain ⟨halarm, _⟩ := Expiry.replace_start options.tick options.slots { unix := 0 } "x" 0
      (show (Expiry.Request.set _ _ _ 1000).InRange from ⟨by decide, by decide⟩)
    cases hfirst.symm.trans hrun
    obtain ⟨_, _, rfl⟩ := Cache.create_eq_ok hc
    exact ⟨halarm, (hslots "k").trans (if_neg (by decide)), hsize, rfl, rfl, rfl, rfl⟩
  obtain ⟨hentry, hgone, hqueued⟩ := run_store_detach hvacant 2 .zero haccepts hopen
  rw [hnext] at hentry hgone hqueued
  let told : Cache Nat := { first with
    contents := (((first.created "k" 2 .zero).place 1).takeKey "k").2 }
  have hstate : ({ cache := c } : System Nat).run ([.store "x" 1 (.ofMillis 1000) false, .workWrite] ++
      [.store "k" 2 .zero false, .detach "k", .sendDelete 1]) =
        { cache := (told.queued (.set 1)).queued (.delete 1) } := by
    rw [run_append, hfirst]
    exact hqueued
  have harranged : ({ cache := (told.queued (.set 1)).queued (.delete 1) } : System Nat).Arranged :=
    hstate ▸ (arranged_create hc).run _
  obtain ⟨order, hkeeps⟩ := harranged.keeps (hstate ▸ fitting_of_bounded hc (by decide) (by decide) _)
  -- The insertion comes too late, and changes nothing but the list.
  obtain ⟨recency, hlate, _⟩ := Cache.upsert_late (c := told.queued (.delete 1)) hkeeps hgone
  let late : Cache Nat := { told with recency }
  have hs : s = { cache := late.queued (.delete 1) } := by
    have hwork : (({ cache := (told.queued (.set 1)).queued (.delete 1) } : System Nat).run
        [.workWrite]) = { cache := late.queued (.delete 1) } :=
      congrArg (fun cache => ({ cache } : System Nat))
        ((Cache.workWrite_queued_before (c := told) hidle (.set 1) (.delete 1)).trans hlate)
    rw [← hwork, ← hstate, ← run_append]
    rfl
  rw [hs]
  have hdeleted : (late.queued (.delete 1)).workWrite = late.bury 1 :=
    Cache.workWrite_queued (c := late) hidle (.delete 1)
  have hitems : (late.queued (.delete 1)).writes.items = [.delete 1] :=
    congrArg (· ++ [WriteOp.delete 1]) hidle
  have hkeyed : late.contents.WellKeyed := harranged.coherent.keyed
  have hfails : hook.fails "k" = true := by decide
  have hclosed := (Cache.isClosed_bury (c := late) hkeyed hentry hopen).mpr ⟨hook, hhook, hfails⟩
  refine ⟨hopen, Contents.keyOf_of_entry hentry, ?_, hitems, halarm, ?_⟩
  · exact (Contents.occupant?_takeKey _ "k" "k").trans (if_pos rfl)
  · dsimp only
    rw [hdeleted]
    exact Cache.alarms_of_closed (c := late) hopen hclosed "x"

end System

end TimedCache
