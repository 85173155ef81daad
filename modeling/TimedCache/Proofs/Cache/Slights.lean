import TimedCache.Proofs.Cache.Deletions

/-!
Which timers are set for the ends of entries. The worker sets the timer of an entry when it comes to
the operation that stored the value, so an entry that has a slot has a timer that heeds its end, or
the operation is still queued. The exceptions are slighted: a caller gave them a sooner end, and the
operation that would have told the worker was refused, or the caller failed before it was sent.
-/

namespace TimedCache

namespace Cache

variable {V : Type} {c : Cache V} {s : Serial} {key : String} {moment : Nat}

/-- The moment at which a value that is stored now must be gone. -/
def endAfter? (c : Cache V) (ttl : Span) : Option Nat :=
  (c.clock.stampAfter ttl).map fun stamp => satAdd stamp c.options.expireDelay.millis

/-- Whether a value that is stored now must be gone before the entry would have to go. -/
def hastens (c : Cache V) (s : Serial) (ttl : Span) : Bool :=
  (c.endAfter? ttl).any fun moment => (c.endOf? s).all fun old => decide (moment < old)

/-- Whether an operation is queued with which the worker will renew the timer of an entry. -/
def awaits (c : Cache V) (s : Serial) : Bool :=
  c.writes.items.any fun op => decide (op.upserted? = some s)

theorem awaits_of_prefix {c' : Cache V} {more : List WriteOp}
    (hitems : c'.writes.items = c.writes.items ++ more) (h : c.awaits s = true) :
    c'.awaits s = true := by
  unfold awaits at h ⊢
  rw [hitems, List.any_append, h, Bool.true_or]

theorem awaits_iff : c.awaits s = true ↔ ∃ op ∈ c.writes.items, op.upserted? = some s := by
  unfold awaits
  simp

/-! ## Ends -/

theorem endOf?_le (h : c.endOf? s = some moment) : moment ≤ maxWord := by
  obtain ⟨e, _, hevict⟩ := Option.bind_eq_some_iff.mp h
  obtain ⟨stamp, _, rfl⟩ := Option.map_eq_some_iff.mp hevict
  exact satAdd_le _ _

/-- The end of an entry that has a slot goes by what readers see. -/
theorem endOf?_of_occupant (h : c.contents.occupant? key = some s) :
    c.endOf? s = (c.contents.reading key).bind fun seen =>
      seen.2.map fun stamp => satAdd stamp c.options.expireDelay.millis := by
  unfold endOf? Contents.reading Contents.occupantEntry?
  rw [h, Option.bind_some]
  cases c.contents.entry? s <;> rfl

theorem endOf?_congr {c' : Cache V} (hs : c.contents.occupant? key = some s)
    (hs' : c'.contents.occupant? key = some s) (hoptions : c'.options = c.options)
    (hreading : c'.contents.reading key = c.contents.reading key) : c'.endOf? s = c.endOf? s := by
  rw [endOf?_of_occupant hs, endOf?_of_occupant hs', hreading, hoptions]

/-- An entry that is overwritten gets the end of the value; the others keep theirs. -/
theorem endOf?_lodge (h : c.contents.WellKeyed) (key : String) (value : V) (ttl : Span)
    (wait : Bool) {other : String} (hs : c.contents.occupant? other = some s) :
    (c.lodge key value ttl wait).2.endOf? s =
      if other = key then c.endAfter? ttl else c.endOf? s := by
  have hs' := lodge_keeps h key value ttl wait hs
  have hreading := congrFun (lodge_follows h key value ttl wait).reading other
  have hoptions := (c.lodge_frame key value ttl wait).1
  split
  · rename_i heq
    subst heq
    rw [h.reading_isSome, hs, Option.isSome_some, Bool.true_or, if_pos rfl] at hreading
    rw [endOf?_of_occupant hs', hreading, hoptions]
    unfold Change.apply endAfter?
    dsimp only
    rw [if_pos rfl, Option.bind_some]
  · rename_i hne
    refine endOf?_congr hs hs' hoptions (hreading.trans ?_)
    split
    · exact if_neg hne
    · rfl

/-- The same holds where the worker is not told. -/
theorem endOf?_written (h : c.contents.WellKeyed) (key : String) (value : V) (ttl : Span)
    {other : String} (hs : (c.written key value ttl).occupant? other = some s) :
    ({ c with contents := c.written key value ttl } : Cache V).endOf? s =
      if other = key then c.endAfter? ttl else c.endOf? s := by
  have hreading := congrFun (written_follows h key value ttl).reading other
  have hold := hs
  rw [occupant?_written] at hold
  refine (endOf?_of_occupant (c := { c with contents := c.written key value ttl }) hs).trans ?_
  rw [hreading]
  unfold Change.apply
  dsimp only
  split
  · rfl
  · rename_i hne
    rw [if_neg (Ne.symm hne)] at hold
    exact (endOf?_of_occupant hold).symm

/-! ## The worker -/

/-- The worker sets the timer for the end of an entry that is stored and keeps its slot. -/
theorem heeds_upsert {order : List Recency.Spot} {fired : List (TimerId × String)}
    (hkeeps : c.recency.Keeps c.contents order) (hkeyed : c.contents.WellKeyed)
    (htidy : c.expiry.Tidy fired)
    (hcurrent : c.expiry.timer.wheel.current ≤ c.clock.reached c.expiry.timer.tick.millis)
    (hfits : (c.added s).recency.Fitting) (halive : (c.upsert s).isClosed = false)
    (hs : (c.upsert s).contents.occupant? key = some s)
    (hend : (c.upsert s).endOf? s = some moment) :
    (c.upsert s).expiry.Heeds c.clock key s moment := by
  have haside := c.upsert_aside s
  rw [haside.contents] at hs
  rw [haside.endOf?_eq] at hend
  obtain ⟨htimed, hexpiry⟩ := expiry_upsert halive
  obtain ⟨_, hlast⟩ := expiry_timed htimed
  have hvacated := (Recency.add_vacated hkeyed c.recency s).1
  obtain ⟨hlinked, hretimed⟩ := retimed_of_kept hkeeps hkeyed hfits hs
  rw [hend] at hretimed
  have htick := hlast hlinked (by rw [hend]; exact nofun)
  have hheeds : (c.retimed s).Heeds c.clock key s moment := by
    rw [hretimed]
    exact htidy.heeds_replace c.clock hcurrent key s (endOf?_le hend)
  have hretidy : (c.retimed s).Tidy fired := by
    rw [hretimed]
    exact htidy.replace htick c.clock key s moment
  rw [hexpiry]
  cases hvictim : (c.recency.add c.contents s).1 with
  | none => exact hheeds
  | some victim =>
    dsimp only
    unfold disowned
    cases (c.added s).contents.keyOf victim with
    | none => exact hheeds
    | some other =>
      refine hretidy.heeds_removeOwned ?_ hheeds
      rintro rfl
      exact ((hvacated.occupant_iff key _).mp hs).2 hvictim

/-- A fired timer removes the entry for which it was set once the entry's end has come. -/
theorem fallen?_of_due {id : TimerId} (halarm : c.expiry.alarms[key]? = some { id, owner := s })
    (hslot : c.contents.occupant? key = some s) (hend : c.endOf? s = some moment)
    (hdue : moment ≤ c.clock.timestamp) : c.fallen? id key = some s := by
  unfold fallen?
  rw [Expiry.acknowledge_of_alarm halarm, Option.filter_some, if_pos]
  rw [hslot, show (c.contents.entry? s).bind _ = some moment from hend]
  simpa using hdue

/-- A fired timer whose entry keeps its slot is set anew for the entry's end. -/
theorem heeds_expire {fired : List (TimerId × String)} {id : TimerId} {other : String}
    (hkeyed : c.contents.WellKeyed) (htidy : c.expiry.Tidy ((id, other) :: fired))
    (hcurrent : c.expiry.timer.wheel.current ≤ c.clock.reached c.expiry.timer.tick.millis)
    (halive : (c.expire id other).isClosed = false)
    (hs : (c.expire id other).contents.occupant? key = some s)
    (hend : c.endOf? s = some moment) (hslot : c.contents.occupant? key = some s)
    (hend' : (c.expire id other).endOf? s = some moment)
    (hheeds : c.expiry.Heeds c.clock key s moment) :
    (c.expire id other).expiry.Heeds c.clock key s moment := by
  have haside := c.expire_aside id other
  have hclock : (c.expire id other).clock = c.clock := by
    rw [haside.clock]
    split <;> rfl
  have htimer := c.expiry.acknowledge_frame other id
  rw [← htimer] at hcurrent
  by_cases hmine : key = other ∧ (c.expiry.alarms[other]?).map (·.id) = some id
  · obtain ⟨rfl, hid⟩ := hmine
    obtain ⟨known, halarm, _⟩ := hheeds
    rw [halarm] at hid
    cases hid
    have hearly : c.early? known key = some s := by
      unfold early?
      rw [Expiry.acknowledge_of_alarm halarm, Option.filter_some, if_pos]
      rw [hslot, hend]
      by_contra hdue
      rw [haside.contents, fallen?_of_due halarm hslot hend (by simpa using hdue)] at hs
      exact (((Recency.remove_vacated hkeyed c.recency s).occupant_iff key s).mp hs).2 rfl
    rw [(expiry_expire hkeyed halive).1, hearly]
    dsimp only
    rw [hend]
    exact htidy.acknowledge.heeds_replace c.clock hcurrent key s (endOf?_le hend)
  · have hkept := htidy.heeds_acknowledge (fun heq hid => hmine ⟨heq, hid⟩) hheeds
    rw [← hclock] at hcurrent hkept ⊢
    exact (drift_expire hkeyed halive).heeds htidy.acknowledge hcurrent hs hend' (endOf?_le hend)
      hkept

end Cache

namespace System

variable {V : Type} {s : System V}

/-- Only a caller who stores a value gives a slot to an entry or a new end to its holder. -/
theorem Coherent.step_occupant (h : s.Coherent) {move : Move V} {key : String} {t : Serial}
    (ht : (s.step move).cache.contents.occupant? key = some t) (hmove : move.storedKey? = none) :
    s.cache.contents.occupant? key = some t ∧
      (s.step move).cache.endOf? t = s.cache.endOf? t := by
  have hslot := (h.step_emptied hmove).occupant key t ht
  refine ⟨hslot, Cache.endOf?_congr hslot ht (s.step_options move) ?_⟩
  have hsome := (h.step move).keyed.reading_isSome key
  refine (h.reading_step_unwritten (by simp [hmove])).resolve_right ?_
  intro hnone
  rw [hnone, ht] at hsome
  cases hsome

theorem Coherent.run_occupant (h : s.Coherent) {moves : List (Move V)}
    (hmoves : ∀ move ∈ moves, move.storedKey? = none) {key : String} {t : Serial}
    (ht : (s.run moves).cache.contents.occupant? key = some t) :
    s.cache.contents.occupant? key = some t ∧
      (s.run moves).cache.endOf? t = s.cache.endOf? t := by
  induction moves generalizing s with
  | nil => exact ⟨ht, rfl⟩
  | cons move rest ih =>
    obtain ⟨hnext, hend⟩ := ih (h.step move) (fun _ hin => hmoves _ (List.mem_cons_of_mem _ hin)) ht
    obtain ⟨hslot, hend'⟩ := h.step_occupant hnext (hmoves move List.mem_cons_self)
    exact ⟨hslot, hend.trans hend'⟩

/-! ## Slights -/

/-- The entries slighted once one of them has got a value of which the worker does not hear. -/
def missed (s : System V) (slights : List Serial) (t : Serial) (ttl : Span) : List Serial :=
  if s.cache.hastens t ttl && !s.cache.awaits t then t :: slights else slights

/-- The entries slighted so far. A caller slights an entry whose end it brings forward when its
operation is refused, or the caller fails, and none is queued for the entry; the next that is queued
makes up for it. -/
def slighted (s : System V) (slights : List Serial) : Move V → List Serial
  | .store key _ ttl wait =>
    match s.cache.contents.occupant? key with
    | some t =>
      if s.cache.accepts wait then slights.filter fun u => decide (u ≠ t)
      else s.missed slights t ttl
    | none => slights
  | .strandSet key _ ttl =>
    s.missed slights ((s.cache.contents.occupant? key).getD s.cache.nextSerial) ttl
  | _ => slights

def slights (s : System V) (sofar : List Serial) : List (Move V) → List Serial
  | [] => sofar
  | move :: rest => (s.step move).slights (s.slighted sofar move) rest

/-- Whether a move brings the end of an entry forward and the worker does not hear of it. -/
def Neglects (s : System V) (t : Serial) : Move V → Prop
  | .store key _ ttl wait =>
    s.cache.contents.occupant? key = some t ∧ s.cache.accepts wait = false ∧
      s.cache.hastens t ttl = true
  | .strandSet key _ ttl =>
    (s.cache.contents.occupant? key).getD s.cache.nextSerial = t ∧ s.cache.hastens t ttl = true
  | _ => False

/-- Each entry that has a slot has a timer that heeds its end, or its operation is queued, unless it
was slighted. -/
def Prompt (s : System V) (slights : List Serial) : Prop :=
  s.cache.recency.Fitting → ∀ key t, s.cache.contents.occupant? key = some t → t ∉ slights →
    s.cache.awaits t = true ∨ ∀ moment, s.cache.endOf? t = some moment →
      s.cache.expiry.Heeds s.cache.clock key t moment

variable {slights : List Serial}

theorem slighted_of_occupant {key : String} {t : Serial}
    (ht : s.cache.contents.occupant? key = some t) (slights : List Serial) (value : V) (ttl : Span)
    (wait : Bool) :
    s.slighted slights (.store key value ttl wait) =
      if s.cache.accepts wait then slights.filter fun u => decide (u ≠ t)
      else s.missed slights t ttl := by
  unfold slighted
  dsimp only
  rw [ht]

theorem slighted_of_vacant {key : String} (hvacant : s.cache.contents.occupant? key = none)
    (slights : List Serial) (value : V) (ttl : Span) (wait : Bool) :
    s.slighted slights (.store key value ttl wait) = slights := by
  unfold slighted
  dsimp only
  rw [hvacant]

theorem subset_missed (slights : List Serial) (t : Serial) (ttl : Span) :
    slights ⊆ s.missed slights t ttl := by
  unfold missed
  split
  · exact List.subset_cons_self _ _
  · exact List.Subset.refl _

/-- An entry that is not slighted by a value has an operation queued, or the end that it had comes
no later. -/
theorem awaits_of_not_missed {t : Serial} {ttl : Span} (h : t ∉ s.missed slights t ttl) :
    s.cache.awaits t = true ∨ ∀ moment, s.cache.endAfter? ttl = some moment →
      ∃ old, s.cache.endOf? t = some old ∧ old ≤ moment := by
  unfold missed at h
  cases hawaits : s.cache.awaits t with
  | true => exact Or.inl rfl
  | false =>
    right
    intro moment hmoment
    have hlater : s.cache.hastens t ttl = false := by
      rw [Bool.eq_false_iff]
      intro hsooner
      simp [hsooner, hawaits] at h
    unfold Cache.hastens at hlater
    rw [hmoment, Option.any_some] at hlater
    cases hearly : s.cache.endOf? t with
    | none =>
      rw [hearly] at hlater
      cases hlater
    | some old =>
      rw [hearly] at hlater
      exact ⟨old, rfl, by simpa using hlater⟩

/-- A value of which the worker does not hear. -/
theorem Prompt.miss (hp : s.Prompt slights) (h : s.Working) (key : String) (value : V) (ttl : Span)
    (counters : Counters) :
    ({ s with cache := { s.cache with
        contents := s.cache.written key value ttl
        counters } } : System V).Prompt
      (s.missed slights ((s.cache.contents.occupant? key).getD s.cache.nextSerial) ttl) := by
  intro hfits other t ht hslight
  have hkeyed := h.arranged.coherent.keyed
  replace ht : (s.cache.written key value ttl).occupant? other = some t := ht
  have hend := Cache.endOf?_written hkeyed key value ttl ht
  change s.cache.awaits t = true ∨ ∀ moment,
    ({ s.cache with contents := s.cache.written key value ttl } : Cache V).endOf? t = some moment →
      s.cache.expiry.Heeds s.cache.clock other t moment
  have hold : t ∉ slights := fun hin => hslight (subset_missed _ _ _ hin)
  rw [Cache.occupant?_written] at ht
  rw [hend]
  split at ht
  · rename_i heq
    subst heq
    rw [Option.some.inj ht] at hslight
    rcases awaits_of_not_missed hslight with hawaits | hsooner
    · exact Or.inl hawaits
    · rw [if_pos rfl]
      cases hslot : s.cache.contents.occupant? key with
      | some u =>
        rw [hslot] at ht
        cases ht
        refine (hp hfits key u hslot hold).imp_right fun hheeds moment hmoment => ?_
        obtain ⟨old, hearly, hle⟩ := hsooner moment hmoment
        exact (hheeds old hearly).of_le hle
      | none =>
        right
        intro moment hmoment
        obtain ⟨old, hearly, _⟩ := hsooner moment hmoment
        rw [hslot] at ht
        cases ht
        obtain ⟨e, he, _⟩ := Option.bind_eq_some_iff.mp hearly
        exact absurd (Contents.lt_size_of_made he) (Nat.lt_irrefl _)
  · rename_i hne
    rw [if_neg (Ne.symm hne)]
    exact hp hfits other t ht hold

/-- A value that is stored in a vacant slot, or of which the worker hears. -/
theorem Prompt.heard (hp : s.Prompt slights) (h : s.Working) {key : String} {value : V} {ttl : Span}
    {wait : Bool} (halive : (s.step (.store key value ttl wait)).cache.isClosed = false)
    (hheard : s.cache.contents.occupant? key = none ∨ s.cache.accepts wait = true) :
    (s.step (.store key value ttl wait)).Prompt
      (s.slighted slights (.store key value ttl wait)) := by
  intro hfits other t ht hslight
  have hkeyed := h.arranged.coherent.keyed
  replace hfits := (s.step_onward (.store key value ttl wait)).1.fitting hfits
  obtain ⟨hclock, hexpiry, _⟩ :=
    s.step_of_not_timed (show (Move.store key value ttl wait).timed = false from rfl)
  obtain ⟨_, more, hitems⟩ :=
    alive_of_caller (show (Move.store key value ttl wait).ofWorker = false from rfl) halive
  rw [hexpiry, hclock]
  rcases Cache.lodge_occupant hkeyed key value ttl wait ht with hold | hqueued
  · by_cases hkey : other = key
    · subst hkey
      have haccepts := hheard.resolve_left (by simp [hold])
      left
      change (s.cache.lodge other value ttl wait).2.awaits t = true
      rw [Cache.lodge_of_occupant hold, if_pos haccepts, Cache.awaits_iff]
      exact ⟨.update t, List.mem_append_right _ List.mem_cons_self, rfl⟩
    · have hend : (s.step (.store key value ttl wait)).cache.endOf? t = _ :=
        Cache.endOf?_lodge hkeyed key value ttl wait hold
      rw [hend, if_neg hkey]
      refine (hp hfits other t hold fun hin => hslight ?_).imp_left (Cache.awaits_of_prefix hitems)
      cases hslot : s.cache.contents.occupant? key with
      | none =>
        rw [slighted_of_vacant hslot]
        exact hin
      | some u =>
        have hne : t ≠ u := by
          rintro rfl
          exact hkey (hkeyed.key_unique hold hslot)
        rw [slighted_of_occupant hslot, if_pos (hheard.resolve_left (by simp [hslot]))]
        simp [hin, hne]
  · exact Or.inl (Cache.awaits_iff.mpr ⟨.set t, hqueued, rfl⟩)

theorem Prompt.store (hp : s.Prompt slights) (h : s.Working) {key : String} {value : V} {ttl : Span}
    {wait : Bool} (halive : (s.step (.store key value ttl wait)).cache.isClosed = false) :
    (s.step (.store key value ttl wait)).Prompt
      (s.slighted slights (.store key value ttl wait)) := by
  have hstep : s.step (.store key value ttl wait) =
    { s with cache := (s.cache.lodge key value ttl wait).2 } := rfl
  cases hslot : s.cache.contents.occupant? key with
  | none => exact hp.heard h halive (Or.inl hslot)
  | some u =>
    cases haccepts : s.cache.accepts wait with
    | true => exact hp.heard h halive (Or.inr haccepts)
    | false =>
      have hmiss := hp.miss h key value ttl s.cache.counters.rejectedWrite
      rw [hstep, Cache.lodge_of_occupant hslot, slighted_of_occupant hslot, haccepts,
        if_neg Bool.false_ne_true, if_neg Bool.false_ne_true]
      rwa [Cache.written_of_occupant hslot, hslot] at hmiss

/-- What a caller does otherwise, and the course of time. -/
theorem Prompt.of_caller (hp : s.Prompt slights) (h : s.Working) {move : Move V}
    (hcaller : move.ofWorker = false) (hmove : move.storedKey? = none) (hstep : move.inStep = true)
    (halive : (s.step move).cache.isClosed = false) : (s.step move).Prompt slights := by
  intro hfits key t ht hslight
  replace hfits := (s.step_onward move).1.fitting hfits
  obtain ⟨hslot, hend⟩ := h.arranged.coherent.step_occupant ht hmove
  obtain ⟨_, more, hitems⟩ := alive_of_caller hcaller halive
  rw [hend]
  refine (hp hfits key t hslot hslight).imp (Cache.awaits_of_prefix hitems) ?_
  intro hheeds moment hmoment
  replace hheeds := hheeds moment hmoment
  cases htimed : move.timed with
  | false =>
    obtain ⟨hclock, hexpiry, _⟩ := s.step_of_not_timed htimed
    rw [hclock, hexpiry]
    exact hheeds
  | true =>
    cases move with
    | lapse ms steady =>
      obtain rfl := of_decide_eq_true hstep
      exact hheeds.lapse ms
    | wake => exact h.clockwork.tidy.heeds_wake _ hheeds
    | halt => cases halive
    | workWrite | workRead | workFired => cases hcaller
    | _ => cases htimed

theorem Prompt.workWrite (hp : s.Prompt slights) (h : s.Working)
    (halive : (s.step .workWrite).cache.isClosed = false) : (s.step .workWrite).Prompt slights := by
  intro hfits key t ht hslight
  obtain ⟨hslot, hend⟩ := h.arranged.coherent.step_occupant ht rfl
  have hbefore := (s.step_onward .workWrite).1.fitting hfits
  have hold := hp hbefore key t hslot hslight
  have hkeyed := h.arranged.coherent.keyed
  cases hitems : s.cache.writes.items with
  | nil =>
    have hidle : s.step .workWrite = s := by
      change ({ s with cache := s.cache.workWrite } : System V) = s
      rw [Cache.workWrite_of_nil hitems]
    rw [hidle]
    exact hold
  | cons op rest =>
    have hcache : (s.step .workWrite).cache = (s.cache.received rest).apply op :=
      Cache.workWrite_of_cons hitems
    by_cases hop : op.upserted? = some t
    · -- The operation is the entry's own: its timer is set for its end.
      right
      intro moment hmoment
      have hupsert : (s.cache.received rest).apply op = (s.cache.received rest).upsert t := by
        cases op <;> cases hop <;> rfl
      have haside := (s.cache.received rest).upsert_aside t
      obtain ⟨order, hkeeps⟩ := h.arranged.keeps hbefore
      rw [hcache, hupsert] at ht hmoment halive hfits ⊢
      rw [haside.recency] at hfits
      rw [haside.clock]
      exact Cache.heeds_upsert (c := s.cache.received rest) hkeeps hkeyed h.clockwork.tidy
        h.clockwork.current hfits halive ht hmoment
    · rcases hold with hawaits | hheeds
      · left
        obtain ⟨op', hin, hop'⟩ := Cache.awaits_iff.mp hawaits
        rw [hitems] at hin
        refine Cache.awaits_iff.mpr ⟨op', ?_, hop'⟩
        rw [writes_of_worker rfl halive, if_pos rfl, hitems]
        exact (List.mem_cons.mp hin).resolve_left (fun heq => hop (heq ▸ hop'))
      · right
        intro moment hmoment
        have hdrift : (s.step .workWrite).cache.Drift (s.cache.taken .workWrite)
            (s.step .workWrite).cache.expiry := worker_drift hkeyed rfl halive
        have htaken : s.cache.taken .workWrite = s.cache.expiry := by
          unfold Cache.taken
          dsimp only
          rw [if_neg]
          intro hclear
          rw [hitems] at hclear
          cases hclear
          rw [hcache] at ht
          cases (Contents.occupant?_clearSlots _ key).symm.trans ht
        have hclock : (s.step .workWrite).cache.clock = s.cache.clock :=
          (Cache.workWrite_frame halive).1
        rw [hend] at hmoment
        rw [htaken] at hdrift
        refine hdrift.heeds h.clockwork.tidy ?_ ht (hend.trans hmoment)
          (Cache.endOf?_le hmoment) ?_
        · rw [hclock]
          exact h.clockwork.current
        · rw [hclock]
          exact hheeds moment hmoment

theorem Prompt.workFired (hp : s.Prompt slights) (h : s.Working)
    (halive : (s.step .workFired).cache.isClosed = false) : (s.step .workFired).Prompt slights := by
  intro hfits key t ht hslight
  obtain ⟨hslot, hend⟩ := h.arranged.coherent.step_occupant ht rfl
  have hold := hp ((s.step_onward .workFired).1.fitting hfits) key t hslot hslight
  obtain ⟨hclock, hqueue, _⟩ := Cache.workFired_frame halive
  have hsame : (s.step .workFired).cache.awaits t = s.cache.awaits t :=
    congrArg (fun queue => queue.items.any fun op => decide (op.upserted? = some t)) hqueue
  rw [hsame]
  refine hold.imp_right fun hheeds moment hmoment => ?_
  have hbefore := hend.symm.trans hmoment
  have htidy := h.clockwork.tidy
  rw [show (s.step .workFired).cache.clock = s.cache.clock from hclock]
  cases hfired : s.cache.fired with
  | nil =>
    have hidle : s.step .workFired = s := by
      change ({ s with cache := s.cache.workFired } : System V) = s
      rw [Cache.workFired_of_nil hfired]
    rw [hidle]
    exact hheeds moment hbefore
  | cons task rest =>
    obtain ⟨id, other⟩ := task
    have hcache : (s.step .workFired).cache =
        ({ s.cache with fired := rest } : Cache V).expire id other :=
      Cache.workFired_of_cons hfired
    rw [hfired] at htidy
    rw [hcache] at ht halive hmoment ⊢
    exact Cache.heeds_expire (c := { s.cache with fired := rest }) h.arranged.coherent.keyed htidy
      h.clockwork.current halive ht hbefore hslot hmoment (hheeds moment hbefore)

/-- While the worker lives and the clocks go together, no entry's end goes unheeded but that of a
slighted one. -/
theorem Prompt.step (hp : s.Prompt slights) (h : s.Working) {move : Move V}
    (hstep : move.inStep = true) (halive : (s.step move).cache.isClosed = false) :
    (s.step move).Prompt (s.slighted slights move) := by
  cases move with
  | store key value ttl wait => exact hp.store h halive
  | strandSet key value ttl =>
    rw [step_strandSet]
    exact hp.miss h key value ttl s.cache.counters
  | workWrite => exact hp.workWrite h halive
  | workRead =>
    obtain ⟨reads, places, heq⟩ := s.cache.workRead_frame
    intro hfits
    have hbefore := hp ((s.step_onward .workRead).1.fitting hfits)
    change ∀ key t, s.cache.workRead.contents.occupant? key = some t → t ∉ slights →
      s.cache.workRead.awaits t = true ∨ ∀ moment, s.cache.workRead.endOf? t = some moment →
        s.cache.workRead.expiry.Heeds s.cache.workRead.clock key t moment
    rw [heq]
    exact hbefore
  | workFired => exact hp.workFired h halive
  | _ => exact hp.of_caller h rfl rfl hstep halive

theorem Prompt.run (hp : s.Prompt slights) (h : s.Working) {moves : List (Move V)}
    (hmoves : ∀ move ∈ moves, move.inStep = true) (halive : (s.run moves).cache.isClosed = false) :
    (s.run moves).Prompt (s.slights slights moves) := by
  induction moves generalizing s slights with
  | nil => exact hp
  | cons move rest ih =>
    have hnext := ((s.step move).run_onward rest).2 halive
    exact ih (hp.step h (hmoves move List.mem_cons_self) hnext) (h.step hnext)
      (fun next hin => hmoves next (List.mem_cons_of_mem _ hin)) halive

theorem prompt_create {options : Options V} {clock : Clock} {c : Cache V}
    (hc : Cache.create options clock = .ok c) : ({ cache := c } : System V).Prompt [] := by
  intro _ key t ht
  have hvacant := Cache.vacant_create hc key
  cases hvacant.symm.trans ht

theorem mem_of_missed {t u : Serial} {ttl : Span} (ht : t ∈ s.missed slights u ttl) :
    t ∈ slights ∨ u = t ∧ s.cache.hastens t ttl = true := by
  unfold missed at ht
  split at ht
  · rename_i hslight
    rcases List.mem_cons.mp ht with rfl | hold
    · exact Or.inr ⟨rfl, (Bool.and_eq_true_iff.mp hslight).1⟩
    · exact Or.inl hold
  · exact Or.inl ht

/-- An entry is slighted only where its end is brought forward and the worker does not hear of it. -/
theorem neglected_of_slighted {moves : List (Move V)} {t : Serial} (ht : t ∈ s.slights slights moves) :
    t ∈ slights ∨ ∃ before move after, moves = before ++ move :: after ∧
      (s.run before).Neglects t move := by
  induction moves generalizing s slights with
  | nil => exact Or.inl ht
  | cons move rest ih =>
    have hstart (hneglects : s.Neglects t move) : t ∈ slights ∨ ∃ before next after,
        move :: rest = before ++ next :: after ∧ (s.run before).Neglects t next :=
      Or.inr ⟨[], move, rest, rfl, hneglects⟩
    rcases ih ht with hnow | ⟨before, next, after, rfl, hlater⟩
    · cases move with
      | store key value ttl wait =>
        cases hu : s.cache.contents.occupant? key with
        | none =>
          rw [slighted_of_vacant hu] at hnow
          exact Or.inl hnow
        | some u =>
          rw [slighted_of_occupant hu] at hnow
          split at hnow
          · exact Or.inl (List.mem_filter.mp hnow).1
          · rename_i hrefused
            rcases mem_of_missed hnow with hold | ⟨rfl, hsooner⟩
            · exact Or.inl hold
            · exact hstart ⟨hu, Bool.eq_false_iff.mpr hrefused, hsooner⟩
      | strandSet key value ttl => exact (mem_of_missed hnow).elim Or.inl hstart
      | _ => exact Or.inl hnow
    · exact Or.inr ⟨move :: before, next, after, rfl, hlater⟩

end System

end TimedCache
