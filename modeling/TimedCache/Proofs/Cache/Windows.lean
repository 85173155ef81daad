import TimedCache.Proofs.Cache.Departures

/-!
The time to live of a stored value, as readers see it. A reader compares the clock with the stamp
under the key, and the worker removes an entry only when its end has come by the same clock. So it
makes no difference to readers whether and when the timer fires: until somebody else touches the
key, it shows the value up to the stamp, the stale value while the grace delay runs, and nothing
after that.
-/

namespace TimedCache

namespace Change

variable {V : Type}

/-- Whether a change concerns a key. -/
def touches (key : String) : Change V → Bool
  | keep => false
  | put other _ _ => other == key
  | remove other => other == key
  | empty => true

theorem apply_of_not_touches {change : Change V} {key : String}
    (h : change.touches key = false) (m : Readings V) : change.apply m key = m key := by
  cases change with
  | keep => rfl
  | put other value stamp => exact if_neg (Ne.symm (beq_eq_false_iff_ne.mp h))
  | remove other => exact if_neg (Ne.symm (beq_eq_false_iff_ne.mp h))
  | empty => cases h

end Change

namespace Readings

variable {V : Type}

/-- A value with a stamp is alive before the stamp only. -/
theorem alive_of_stamp {m : Readings V} {key : String} {value : V} {stamp : Nat}
    (h : m key = some (value, some stamp)) (now : Nat) (delay : Span) :
    m.alive now delay key = if now < stamp then some value else none := by
  unfold alive answer
  rw [h]
  dsimp only
  by_cases halive : now < stamp
  · rw [if_pos halive, if_pos halive]
  · rw [if_neg halive, if_neg halive]
    by_cases hstale : now < satAdd stamp delay.millis
    · rw [if_pos hstale]
    · rw [if_neg hstale]

end Readings

namespace System

variable {V : Type} {s : System V} {key : String}

/-- Whether a move sets, deletes, evicts or clears a key. A timer that removes it does not count. -/
def disturbs (s : System V) (key : String) : Move V → Bool
  | .workFired => false
  | move => (s.change move).touches key

/-- Nobody sets or deletes a key in the course of some moves, nor does the worker evict or clear
it. -/
def Undisturbed (key : String) (s : System V) : List (Move V) → Prop
  | [] => True
  | move :: rest => s.disturbs key move = false ∧ (s.step move).Undisturbed key rest

/-- A fired timer empties the slot of a key, or has a callback run for it. -/
def FiredFor (s : System V) (key : String) : Prop :=
  (s.cache.contents.occupant? key ≠ none ∧
      (s.step .workFired).cache.contents.occupant? key = none) ∨
    ∃ n ∈ (s.step .workFired).cache.notices, n ∉ s.cache.notices ∧ n.key = key

/-! ## The clock -/

theorem clock_of_worker (s : System V) {move : Move V} (hworker : move.ofWorker = true) :
    (s.step move).cache.clock = s.cache.clock := by
  cases move with
  | workWrite =>
    change s.cache.workWrite.clock = s.cache.clock
    cases hitems : s.cache.writes.items with
    | nil => rw [Cache.workWrite_of_nil hitems]
    | cons op rest =>
      rw [(Cache.workWrite_aside hitems).1.clock]
      cases op <;> rfl
  | workRead =>
    obtain ⟨reads, places, heq⟩ := s.cache.workRead_frame
    change s.cache.workRead.clock = s.cache.clock
    rw [heq]
  | workFired =>
    change s.cache.workFired.clock = s.cache.clock
    cases hfired : s.cache.fired with
    | nil => rw [Cache.workFired_of_nil hfired]
    | cons task rest =>
      rw [Cache.workFired_of_cons hfired, (Cache.expire_aside _ task.1 task.2).clock]
      split <;> rfl
  | _ => cases hworker

/-- No move sets the time of day back. -/
theorem timestamp_step (s : System V) (move : Move V) :
    s.cache.clock.timestamp ≤ (s.step move).cache.clock.timestamp := by
  have hsame (heq : (s.step move).cache.clock = s.cache.clock) :
      s.cache.clock.timestamp ≤ (s.step move).cache.clock.timestamp :=
    Nat.le_of_eq (congrArg Clock.timestamp heq).symm
  cases htimed : move.timed with
  | false => exact hsame (s.step_of_not_timed htimed).1
  | true =>
    cases move with
    | lapse ms steady => exact s.cache.clock.timestamp_mono ms steady
    | wake | halt => exact hsame rfl
    | workWrite => exact hsame (s.clock_of_worker rfl)
    | workRead => exact hsame (s.clock_of_worker rfl)
    | workFired => exact hsame (s.clock_of_worker rfl)
    | _ => cases htimed

/-! ## What readers find -/

/-- An undisturbed key shows what it did unless a fired timer removes it. -/
theorem Coherent.reading_undisturbed (h : s.Coherent) {move : Move V}
    (hcalm : s.disturbs key move = false) :
    (s.step move).cache.contents.reading key = s.cache.contents.reading key ∨
      move = .workFired ∧ s.change .workFired = .remove key ∧
        (s.step move).cache.contents.reading key = none := by
  have hkept (htouches : (s.change move).touches key = false) :
      (s.step move).cache.contents.reading key = s.cache.contents.reading key := by
    rw [(h.step_follows move).reading]
    exact Change.apply_of_not_touches htouches _
  cases move with
  | workFired =>
    cases htouches : (s.change .workFired).touches key with
    | false => exact Or.inl (hkept htouches)
    | true =>
      right
      have hremoved : s.change .workFired = .remove key := by
        change s.cache.firedChange.touches key = true at htouches
        change s.cache.firedChange = .remove key
        unfold Cache.firedChange at htouches ⊢
        split at htouches
        · split at htouches
          · rename_i hfallen
            rw [if_pos hfallen, beq_iff_eq.mp htouches]
          · cases htouches
        · cases htouches
      refine ⟨rfl, hremoved, ?_⟩
      rw [(h.step_follows .workFired).reading, hremoved]
      exact if_pos rfl
  | _ => exact Or.inl (hkept hcalm)

/-- A key shows a value with its stamp, or nothing once the value's end has come. -/
def Stands (s : System V) (key : String) (value : V) (stamp : Option Nat) : Prop :=
  s.cache.contents.reading key = some (value, stamp) ∨
    s.cache.contents.reading key = none ∧
      ∃ moment, stamp = some moment ∧
        satAdd moment s.cache.options.expireDelay.millis ≤ s.cache.clock.timestamp

/-- A timer removes what a key shows only once its end has come. -/
theorem Coherent.ended_of_removed (h : s.Coherent) {value : V} {stamp : Option Nat}
    (hstands : s.Stands key value stamp) (hremoved : s.change .workFired = .remove key) :
    ∃ moment, stamp = some moment ∧
      satAdd moment s.cache.options.expireDelay.millis ≤ s.cache.clock.timestamp := by
  rcases hstands with hshown | ⟨_, hended⟩
  · have hanswer := h.answer_of_fired hremoved
    unfold Readings.answer at hanswer
    rw [hshown] at hanswer
    cases stamp with
    | none => cases hanswer
    | some moment =>
      dsimp only at hanswer
      split at hanswer
      · cases hanswer
      · split at hanswer
        · cases hanswer
        · rename_i hend
          exact ⟨moment, rfl, Nat.not_lt.mp hend⟩
  · exact hended

/-- An undisturbed key goes on showing its value up to the value's end. -/
theorem Coherent.stands_step (h : s.Coherent) {value : V} {stamp : Option Nat}
    (hstands : s.Stands key value stamp) {move : Move V} (hcalm : s.disturbs key move = false) :
    (s.step move).Stands key value stamp := by
  have hend {moment : Nat}
      (hpast : satAdd moment s.cache.options.expireDelay.millis ≤ s.cache.clock.timestamp) :
      satAdd moment (s.step move).cache.options.expireDelay.millis ≤
        (s.step move).cache.clock.timestamp := by
    rw [s.step_options move]
    exact hpast.trans (s.timestamp_step move)
  rcases h.reading_undisturbed hcalm with hsame | ⟨_, hremoved, hnone⟩
  · unfold Stands
    rw [hsame]
    refine hstands.imp_right ?_
    rintro ⟨hnone, moment, hstamp, hpast⟩
    exact ⟨hnone, moment, hstamp, hend hpast⟩
  · obtain ⟨moment, hstamp, hpast⟩ := h.ended_of_removed hstands hremoved
    exact Or.inr ⟨hnone, moment, hstamp, hend hpast⟩

theorem Coherent.stands_run (h : s.Coherent) {value : V} {stamp : Option Nat}
    (hstands : s.Stands key value stamp) {moves : List (Move V)} (hcalm : s.Undisturbed key moves) :
    (s.run moves).Stands key value stamp := by
  induction moves generalizing s with
  | nil => exact hstands
  | cons move rest ih => exact ih (h.step move) (h.stands_step hstands hcalm.1) hcalm.2

theorem Undisturbed.left {moves more : List (Move V)} (h : s.Undisturbed key (moves ++ more)) :
    s.Undisturbed key moves := by
  induction moves generalizing s with
  | nil => trivial
  | cons move rest ih => exact ⟨h.1, ih h.2⟩

/-- The answer to a reader is the one for the value and its stamp. -/
theorem Stands.answer {value : V} {stamp : Option Nat} (h : s.Stands key value stamp)
    (hword : ∀ moment, stamp = some moment → moment ≤ maxWord) :
    s.cache.contents.reading.answer s.cache.clock.timestamp s.cache.options.expireDelay key =
      Readings.answer (fun _ => some (value, stamp)) s.cache.clock.timestamp
        s.cache.options.expireDelay key := by
  unfold Readings.answer
  rcases h with hshown | ⟨hnone, moment, rfl, hend⟩
  · rw [hshown]
  · have hbefore := le_satAdd_left (hword moment rfl) s.cache.options.expireDelay.millis
    rw [hnone]
    dsimp only
    rw [if_neg (by omega), if_neg (by omega)]

/-- A reader is told what the value and its stamp say. -/
theorem Stands.lookups {value : V} {stamp : Option Nat} (h : s.Stands key value stamp)
    (hword : ∀ moment, stamp = some moment → moment ≤ maxWord) :
    (s.cache.getWithStatus key).1 =
        Readings.answer (fun _ => some (value, stamp)) s.cache.clock.timestamp
          s.cache.options.expireDelay key ∧
      (s.cache.get key).1 =
        Readings.alive (fun _ => some (value, stamp)) s.cache.clock.timestamp
          s.cache.options.expireDelay key := by
  have hanswer := h.answer hword
  rw [Cache.getWithStatus_fst, Cache.get_fst]
  unfold Readings.alive
  rw [hanswer]
  exact ⟨rfl, rfl⟩

/-- A timer that empties a slot or has a callback run removes the key from sight. -/
theorem Coherent.removes_of_firedFor (h : s.Coherent) (hfired : s.FiredFor key) :
    s.change .workFired = .remove key := by
  rcases hfired with ⟨hslot, hvacant⟩ | ⟨n, hn, hnew, rfl⟩
  · have hcalm : s.disturbs key .workFired = false := rfl
    rcases h.reading_undisturbed hcalm with hsame | ⟨_, hremoved, _⟩
    · have hbefore := h.keyed.reading_isSome key
      have hafter := (h.step .workFired).keyed.reading_isSome key
      rw [hsame, hbefore, hvacant] at hafter
      exact absurd (Option.isNone_iff_eq_none.mp (by simpa using hafter)) hslot
    · exact hremoved
  · rcases s.step_tells .workFired with hsame | ⟨reason, t, hleaves, hsame | ⟨e, he, htold⟩⟩
    · exact absurd (hsame ▸ hn) hnew
    · exact absurd (hsame ▸ hn) hnew
    · rw [htold] at hn
      rcases List.mem_append.mp hn with hold | hlast
      · exact absurd hold hnew
      · cases List.mem_singleton.mp hlast
        cases reason with
        | deleted => cases hleaves
        | evicted => cases hleaves
        | expired =>
          obtain ⟨⟨id, other⟩, hhead, hfallen⟩ := Option.bind_eq_some_iff.mp hleaves
          obtain ⟨rest, hfired⟩ := List.head?_eq_some_iff.mp hhead
          have hslot := (Cache.occupant_of_fallen hfallen).1
          have hkey := h.step_keyOf .workFired (h.keyed.keyOf_of_occupant hslot)
          rw [Contents.keyOf_of_entry he, Option.some.injEq] at hkey
          change s.cache.firedChange = .remove e.key
          unfold Cache.firedChange
          rw [hfired]
          dsimp only
          rw [hfallen, hkey]
          rfl

/-- What a store that takes effect puts under its key. -/
theorem Coherent.stands_of_store (h : s.Coherent) {value : V} {ttl : Span} {wait : Bool}
    (heffect : (s.cache.contents.occupant? key).isSome ∨ s.cache.accepts wait = true) :
    (s.step (.store key value ttl wait)).Stands key value (s.cache.clock.stampAfter ttl) := by
  have hput : s.change (.store key value ttl wait) =
      .put key value (s.cache.clock.stampAfter ttl) := by
    refine if_pos ?_
    rw [h.keyed.reading_isSome]
    exact Bool.or_eq_true_iff.mpr heffect
  refine Or.inl ?_
  rw [(h.step_follows _).reading, hput]
  exact if_pos rfl

/-- A value that took effect and that nobody has disturbed since is shown as alive up to its stamp,
as stale while the grace delay runs, and not at all after that, whatever the worker and the timers
do; without a time to live it is alive for good. No timer removes it before its end. -/
theorem shown_until_end {options : Options V} {clock : Clock} {c : Cache V}
    (hc : Cache.create options clock = .ok c) {before after : List (Move V)} {s s' : System V}
    {value : V} {ttl : Span} {wait : Bool} (hs : ({ cache := c } : System V).run before = s)
    (heffect : (s.cache.contents.occupant? key).isSome ∨ s.cache.accepts wait = true)
    (hcalm : (s.step (.store key value ttl wait)).Undisturbed key after)
    (hs' : (s.step (.store key value ttl wait)).run after = s') :
    let stamp := satAdd s.cache.clock.timestamp ttl.millis
    let moment := satAdd stamp options.expireDelay.millis
    let now := s'.cache.clock.timestamp
    (ttl.isZero = true → (s'.cache.getWithStatus key).1 = (some value, .exist) ∧
      (s'.cache.get key).1 = some value) ∧
    (ttl.isZero = false →
      (s'.cache.getWithStatus key).1 =
        (if now < stamp then (some value, .exist)
        else if now < moment then (some value, .expired)
        else (none, .notExist)) ∧
      (s'.cache.get key).1 = if now < stamp then some value else none) ∧
    ∀ first rest, after = first ++ .workFired :: rest →
      ((s.step (.store key value ttl wait)).run first).FiredFor key →
        ttl.isZero = false ∧
          moment ≤ ((s.step (.store key value ttl wait)).run first).cache.clock.timestamp := by
  intro stamp moment now
  have hcoherent : s.Coherent := hs ▸ (coherent_create hc).run before
  have hoptions (moves : List (Move V)) :
      ((s.step (.store key value ttl wait)).run moves).cache.options = options := by
    rw [run_options, step_options, ← hs, run_options]
    exact Cache.options_create hc
  have hstored := hcoherent.step (.store key value ttl wait)
  have hstands : (s.step (.store key value ttl wait)).Stands key value
      (s.cache.clock.stampAfter ttl) := hcoherent.stands_of_store heffect
  obtain ⟨hanswer, hget⟩ := (hstored.stands_run hstands hcalm).lookups fun _ =>
    s.cache.clock.stampAfter_le ttl
  rw [hoptions after, hs'] at hanswer hget
  rw [hanswer, hget]
  unfold Clock.stampAfter at hstands ⊢
  refine ⟨?_, ?_, ?_⟩
  · intro hzero
    rw [hzero, if_pos rfl]
    exact ⟨rfl, rfl⟩
  · intro hfinite
    rw [hfinite, if_neg Bool.false_ne_true]
    exact ⟨rfl, Readings.alive_of_stamp rfl now options.expireDelay⟩
  · rintro first rest rfl hfired
    have hfirst := hstored.run first
    have hstill := hstored.stands_run hstands hcalm.left
    obtain ⟨stamp', hstamp, hpast⟩ :=
      hfirst.ended_of_removed hstill (hfirst.removes_of_firedFor hfired)
    cases hzero : ttl.isZero with
    | true =>
      rw [hzero, if_pos rfl] at hstamp
      cases hstamp
    | false =>
      rw [hzero, if_neg Bool.false_ne_true] at hstamp
      cases hstamp
      rw [hoptions] at hpast
      exact ⟨rfl, hpast⟩

/-- The clocks pass the stamp while nobody wakes the timers, and the worker looks for one in vain. -/
theorem shown_until_end_stale :
    ∃ c : Cache Nat, Cache.create { expireDelay := .ofMillis 5 } { unix := 0 } = .ok c ∧
      (((({ cache := c } : System Nat).step (.store "a" 1 (.ofMillis 10) false)).run
        [.lapse 12 0, .workFired]).cache.getWithStatus "a").1 = (some 1, .expired) := by
  let options : Options Nat := { expireDelay := .ofMillis 5 }
  obtain ⟨c, hc⟩ := Cache.exists_create (show options.shards ≤ _ by decide) { unix := 0 }
  refine ⟨c, hc, ?_⟩
  have hclock : c.clock = { unix := 0 } := by
    obtain ⟨contents, _, rfl⟩ := Cache.create_eq_ok hc
    rfl
  have haccepts : c.accepts false = true := by
    obtain ⟨contents, _, rfl⟩ := Cache.create_eq_ok hc
    rfl
  have hnow : ((({ cache := c } : System Nat).step (.store "a" 1 (.ofMillis 10) false)).run
      [.lapse 12 0, .workFired]).cache.clock.timestamp = 12 := by
    change ((System.step _ (.lapse 12 0)).step .workFired).cache.clock.timestamp = 12
    rw [clock_of_worker _ rfl]
    change clampWord ((c.lodge "a" 1 (.ofMillis 10) false).2.clock.unix + 12).toNat = 12
    rw [(c.lodge_frame "a" 1 (.ofMillis 10) false).2.1, hclock]
    rfl
  have hcalm : Undisturbed "a" (({ cache := c } : System Nat).step
      (.store "a" 1 (.ofMillis 10) false)) [.lapse 12 0, .workFired] := ⟨rfl, rfl, trivial⟩
  have hbefore : ({ cache := c } : System Nat).run [] = { cache := c } := rfl
  obtain ⟨_, hwindow, _⟩ := shown_until_end hc hbefore (Or.inr haccepts) hcalm rfl
  obtain ⟨hanswer, _⟩ := hwindow rfl
  rw [hanswer, hnow, hclock]
  decide

end System

end TimedCache
