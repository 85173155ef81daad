import TimedCache.Proofs.Cache.Slights

/-!
Entries whose end has come. All timers for a moment have fired once time has passed the tick after
it, and the worker that comes to a fired timer removes the entry. So when the worker has caught up,
the slighted entries are all that stays when it should have gone.
-/

namespace TimedCache

namespace Cache

variable {V : Type} {c : Cache V} {s : Serial} {key : String}

/-- Each timer of an entry that must be gone by a moment has fired, but for some entries. -/
def Called (c : Cache V) (slights : List Serial) (bound : Int) : Prop :=
  ∀ key s moment, c.contents.occupant? key = some s → s ∉ slights → c.endOf? s = some moment →
    (moment : Int) ≤ bound →
      ∃ id, c.expiry.alarms[key]? = some { id, owner := s } ∧ (id, key) ∈ c.fired

/-- A fired timer leaves the others on record. -/
theorem alarms_expire {id known : TimerId} {other : String} (hkeyed : c.contents.WellKeyed)
    (halive : (c.expire id other).isClosed = false)
    (halarm : c.expiry.alarms[key]? = some { id := known, owner := s })
    (hne : (known, key) ≠ (id, other)) :
    (c.expire id other).expiry.alarms[key]? = some { id := known, owner := s } := by
  have hkept : (c.expiry.acknowledge other id).2.alarms[key]? = some { id := known, owner := s } := by
    rw [Expiry.alarms_acknowledge, if_neg]
    · exact halarm
    · rintro ⟨rfl, hid⟩
      rw [halarm] at hid
      cases hid
      exact hne rfl
  rw [(expiry_expire hkeyed halive).1]
  cases hearly : c.early? id other with
  | none => exact hkept
  | some t =>
    dsimp only
    rw [Expiry.alarms_renew_of_ne]
    · exact hkept
    · rintro rfl
      obtain ⟨howner, _⟩ := Option.filter_eq_some_iff.mp hearly
      rw [Expiry.acknowledge_fst, halarm, Option.filter_some, if_neg] at howner
      · cases howner
      · intro hid
        exact hne (congrArg (·, key) (of_decide_eq_true hid))

end Cache

namespace System

variable {V : Type} {s : System V} {slights : List Serial}

/-! ## Catching up -/

/-- The worker that comes to a fired timer removes the entry if its end has come. -/
theorem Working.called_workFired (h : s.Working) {bound : Int}
    (hcalled : s.cache.Called slights bound) (hbound : bound ≤ s.cache.clock.unix)
    (halive : (s.step .workFired).cache.isClosed = false) :
    (s.step .workFired).cache.Called slights bound := by
  intro key t moment ht hslight hend hle
  have hkeyed := h.arranged.coherent.keyed
  obtain ⟨hslot, hsame⟩ := h.arranged.coherent.step_occupant ht rfl
  rw [hsame] at hend
  obtain ⟨id, halarm, hin⟩ := hcalled key t moment hslot hslight hend hle
  obtain ⟨_, _, _, hrest, _⟩ := Cache.workFired_frame halive
  cases hfired : s.cache.fired with
  | nil =>
    rw [hfired] at hin
    cases hin
  | cons task rest =>
    obtain ⟨known, other⟩ := task
    have hcache : (s.step .workFired).cache =
        ({ s.cache with fired := rest } : Cache V).expire known other :=
      Cache.workFired_of_cons hfired
    rw [hfired] at hin hrest
    have hne : (id, key) ≠ (known, other) := by
      rintro ⟨rfl, rfl⟩
      have hdue : moment ≤ s.cache.clock.timestamp := by
        have hword := Cache.endOf?_le hend
        unfold Clock.timestamp clampWord
        omega
      have haside := ({ s.cache with fired := rest } : Cache V).expire_aside id key
      have hfallen : ({ s.cache with fired := rest } : Cache V).fallen? id key = some t :=
        Cache.fallen?_of_due halarm hslot hend hdue
      rw [hfallen] at haside
      rw [hcache, haside.contents] at ht
      exact (((Recency.remove_vacated hkeyed s.cache.recency t).occupant_iff key t).mp ht).2 rfl
    refine ⟨id, ?_, ?_⟩
    · rw [hcache] at halive ⊢
      exact Cache.alarms_expire (c := { s.cache with fired := rest }) hkeyed halive halarm hne
    · rw [show (s.step .workFired).cache.fired = rest from hrest]
      exact (List.mem_cons.mp hin).resolve_left hne

/-- A worker with fired timers only comes to one after the other. -/
theorem Working.called_workSteps (h : s.Working) {bound : Int}
    (hcalled : s.cache.Called slights bound) (hbound : bound ≤ s.cache.clock.unix)
    (hwrites : s.cache.writes.items = []) (hreads : s.cache.reads.sink.items = []) (n : Nat)
    (halive : (s.cache.workSteps n).isClosed = false) :
    (s.cache.workSteps n).Called slights bound ∧
      (s.cache.workSteps n).fired = s.cache.fired.drop n := by
  induction n generalizing s with
  | zero => exact ⟨hcalled, rfl⟩
  | succ n ih =>
    have hwork : s.cache.workSteps (n + 1) = (s.step .workFired).cache.workSteps n :=
      congrArg (·.workSteps n) (Cache.work_eq_workFired hwrites hreads)
    rw [hwork] at halive ⊢
    have hnext := (Cache.later_workSteps _ n).alive halive
    obtain ⟨hclock, hwrites', hreads', hrest, _⟩ := Cache.workFired_frame hnext
    obtain ⟨hend, hfired⟩ := ih (h.step hnext) (h.called_workFired hcalled hbound hnext)
      (hbound.trans_eq (congrArg Clock.unix hclock).symm)
      ((congrArg (·.items) hwrites').trans hwrites)
      ((congrArg (·.sink.items) hreads').trans hreads) halive
    refine ⟨hend, ?_⟩
    rw [hfired, show (s.step .workFired).cache.fired = _ from hrest, List.drop_tail]

/-! ## What is left -/

/-- The clocks go together. -/
theorem epoch_step (s : System V) {move : Move V} (hstep : move.inStep = true)
    (halive : (s.step move).cache.isClosed = false) :
    (s.step move).cache.clock.epoch = s.cache.clock.epoch := by
  cases htimed : move.timed with
  | false => rw [(s.step_of_not_timed htimed).1]
  | true =>
    cases move with
    | lapse ms steady =>
      obtain rfl := of_decide_eq_true hstep
      exact s.cache.clock.epoch_lapse ms
    | wake => rfl
    | halt => cases halive
    | workWrite => rw [(worker_frame rfl halive).1]
    | workRead => rw [(worker_frame rfl halive).1]
    | workFired => rw [(worker_frame rfl halive).1]
    | _ => cases htimed

theorem epoch_run (s : System V) {moves : List (Move V)}
    (hmoves : ∀ move ∈ moves, move.inStep = true) (halive : (s.run moves).cache.isClosed = false) :
    (s.run moves).cache.clock.epoch = s.cache.clock.epoch := by
  induction moves generalizing s with
  | nil => rfl
  | cons move rest ih =>
    rw [run_cons, ih _ (fun next hin => hmoves next (List.mem_cons_of_mem _ hin)) halive,
      s.epoch_step (hmoves move List.mem_cons_self) (((s.step move).run_onward rest).2 halive)]

/-- All timers that are due have fired once time has passed a tick. -/
theorem Working.called_advance (h : s.Working) (hp : s.Prompt slights)
    (hfits : s.cache.recency.Fitting) (hwrites : s.cache.writes.items = []) (ms : Nat) {tick : Nat}
    (htick : tick = s.cache.expiry.timer.tick.millis)
    (hcrossed : s.cache.clock.elapsed.millis / tick <
      (s.cache.clock.advance ms).elapsed.millis / tick) :
    (s.cache.advance ms).Called slights (s.cache.clock.epoch +
      ((s.cache.clock.advance ms).elapsed.millis / tick * tick : Nat)) := by
  subst htick
  intro key t moment ht hslight hend hle
  have hheeds : s.cache.expiry.Heeds s.cache.clock key t moment := by
    refine (hp hfits key t ht hslight).resolve_left ?_ moment hend
    unfold Cache.awaits
    rw [hwrites]
    exact Bool.false_ne_true
  exact h.clockwork.tidy.fired_of_heeds hheeds (s.cache.clock.advance ms) h.clockwork.current
    hcrossed hle

/-- A worker that has nothing else to do comes to the timers that time lets fire. -/
theorem settle_of_idle {c : Cache V} (hrunning : c.paused = false) (hwrites : c.writes.items = [])
    (hreads : c.reads.sink.items = []) (ms : Nat) :
    (c.advance ms).settle = (c.advance ms).workSteps (c.advance ms).fired.length := by
  have hsettle : (c.advance ms).settle = (c.advance ms).workSteps (c.advance ms).backlog :=
    if_neg (by simp [Cache.advance, Cache.wake, Cache.lapse, hrunning])
  rw [hsettle]
  simp [Cache.backlog, Cache.advance, Cache.wake, Cache.lapse, hwrites, hreads]

/-- A worker that catches up once time has passed makes moves of its own only. -/
theorem run_advance_settle (s : System V) (ms : Nat) :
    ∃ more : List (Move V), (∀ move ∈ more, move.ofWorker = true) ∧
      s.run (.lapse ms ms :: .wake :: more) =
        { cache := (s.cache.advance ms).settle, detached := s.detached } :=
  leads_settle (fun _ h => h) (s.cache.advance ms) s.detached

/-- When a worker that has nothing to do sees time pass a tick, it leaves no entry that must be gone
by the last tick passed, unless the entry was slighted: its end was brought forward by a caller whose
operation was refused, or who failed for want of a deadline. -/
theorem gone_when_due_unless_slighted {options : Options V} {unix : Int} {c : Cache V}
    (hc : Cache.create options { unix } = .ok c) {moves : List (Move V)} {s : System V}
    (hmoves : ∀ move ∈ moves, move.inStep = true) (hs : ({ cache := c } : System V).run moves = s)
    (hrunning : s.cache.paused = false) (hwrites : s.cache.writes.items = [])
    (hreads : s.cache.reads.sink.items = []) {ms : Nat}
    {last : Cache V} (hlast : (s.cache.advance ms).settle = last) (halive : last.isClosed = false)
    (hfits : last.recency.Fitting) {tick ticks : Nat}
    (htick : tick = (max options.tick (.ofMillis 1)).millis)
    (hticks : ticks = (s.cache.clock.advance ms).elapsed.millis / tick)
    (hcrossed : s.cache.clock.elapsed.millis / tick < ticks) :
    ∀ key t moment, last.contents.occupant? key = some t → last.endOf? t = some moment →
      (moment : Int) ≤ unix + (ticks * tick : Nat) →
        t ∈ ({ cache := c } : System V).slights [] moves ∧
        ∃ before move after, moves = before ++ move :: after ∧
          (({ cache := c } : System V).run before).Neglects t move := by
  intro key t moment ht hend hdue
  rw [settle_of_idle hrunning hwrites hreads] at hlast
  have hlater := (s.cache.advance ms).later_workSteps (s.cache.advance ms).fired.length
  rw [hlast] at hlater
  have halive' : s.cache.isClosed = false := hlater.alive halive
  have hworking : s.Working := hs ▸ (working_create hc).run (hs ▸ halive')
  have hadvanced : ({ s with cache := s.cache.advance ms } : System V).Working := by
    have hlapsed : (s.step (.lapse ms ms)).Working := hworking.step halive'
    have hwoken : ((s.step (.lapse ms ms)).step .wake).cache.isClosed = false := hlater.alive halive
    exact hlapsed.step hwoken
  have hprompt : s.Prompt (({ cache := c } : System V).slights [] moves) :=
    hs ▸ (prompt_create hc).run (working_create hc) hmoves (hs ▸ halive')
  have hepoch : s.cache.clock.epoch = unix := by
    have hrun := epoch_run ({ cache := c } : System V) hmoves (hs ▸ halive')
    rw [hs] at hrun
    obtain ⟨contents, _, rfl⟩ := Cache.create_eq_ok hc
    rw [hrun]
    simp [Clock.epoch]
  have htick' : tick = s.cache.expiry.timer.tick.millis := by
    rw [hworking.clockwork.tick, htick, ← hs, run_options]
    exact congrArg (fun o : Options V => (max o.tick _).millis) (Cache.options_create hc).symm
  rw [hticks] at hcrossed
  rw [← hepoch, hticks] at hdue
  have hcalled :=
    hworking.called_advance hprompt (hlater.grows.fitting hfits) hwrites ms htick' hcrossed
  have hpassed := (s.cache.clock.advance ms).boundary_le tick
  rw [show (s.cache.clock.advance ms).epoch = s.cache.clock.epoch from Clock.epoch_lapse _ _]
    at hpassed
  obtain ⟨hend', hfired⟩ := hadvanced.called_workSteps hcalled hpassed hwrites hreads
    (s.cache.advance ms).fired.length (hlast ▸ halive)
  have hslighted : t ∈ ({ cache := c } : System V).slights [] moves := by
    by_contra hheeded
    obtain ⟨id, _, hin⟩ := hend' key t moment (hlast ▸ ht) hheeded (hlast ▸ hend) hdue
    rw [hfired] at hin
    simp at hin
  exact ⟨hslighted, (neglected_of_slighted hslighted).resolve_left List.not_mem_nil⟩

/-- An entry that expires is removed at the first tick after its end. -/
theorem gone_when_due_unless_slighted_once :
    ∃ c last : Cache Nat,
      ((({ cache := c } : System Nat).run
        [.store "k" 1 (.ofMillis 10) false, .workWrite]).cache.advance 2000).settle = last ∧
      last.contents.occupant? "k" = none := by
  let options : Options Nat := { capacity := 1 }
  obtain ⟨c, hc⟩ := Cache.exists_create (show options.shards ≤ _ by decide) { unix := 0 }
  have htame : options.Tame := fun _ hhook => by rcases hhook with hnone | hnone <;> cases hnone
  have hmade : (({ unix := 0 } : Clock).stampAfter (.ofMillis 10)).map
      (fun stamp => satAdd stamp options.expireDelay.millis) = some 10 := by decide
  have hslights : ({ cache := c } : System Nat).slights [] [.store "k" 1 (.ofMillis 10) false,
      .workWrite] = [] := slighted_of_vacant (Cache.vacant_create hc "k") [] 1 (.ofMillis 10) false
  obtain ⟨s, hs⟩ : ∃ s, ({ cache := c } : System Nat).run
    [.store "k" 1 (.ofMillis 10) false, .workWrite] = s := ⟨_, rfl⟩
  obtain ⟨last, hlast⟩ : ∃ last, (s.cache.advance 2000).settle = last := ⟨_, rfl⟩
  refine ⟨c, last, hs ▸ hlast, ?_⟩
  obtain ⟨hclock, hrunning, hwrites, hreads, hslots, hend⟩ : s.cache.clock = { unix := 0 } ∧
      s.cache.paused = false ∧ s.cache.writes.items = [] ∧ s.cache.reads.sink.items = [] ∧
      (∀ t, s.cache.contents.occupant? "k" = some t → t = 0) ∧ s.cache.endOf? 0 = some 10 := by
    obtain ⟨recency, place, _, hrun⟩ := linked_first hc (by decide) "k" 1 (.ofMillis 10) false
    obtain ⟨_, _, hshown, hslots⟩ := Cache.contents_first hc "k" 1 (.ofMillis 10) place
    rw [← hs, hrun]
    have hslots' (t : Serial) (ht : (((c.created "k" 1 (.ofMillis 10)).place 0).link 0 place).occupant?
        "k" = some t) : t = 0 := by
      rw [hslots, if_pos rfl] at ht
      exact (Option.some.inj ht).symm
    obtain ⟨_, _, rfl⟩ := Cache.create_eq_ok hc
    exact ⟨rfl, rfl, rfl, rfl, hslots', Eq.trans (Cache.endOf?_of_shown hshown) hmade⟩
  obtain ⟨more, hmore, hrun⟩ := s.run_advance_settle 2000
  rw [hlast] at hrun
  have htotal : ({ cache := c } : System Nat).run ([.store "k" 1 (.ofMillis 10) false, .workWrite] ++
      .lapse 2000 2000 :: .wake :: more) = { cache := last, detached := s.detached } := by
    rw [run_append, hs, hrun]
  have halive : last.isClosed = false := by
    have hhalt : .halt ∉ [.store "k" 1 (.ofMillis 10) false, .workWrite] ++
        .lapse 2000 2000 :: .wake :: more := by
      intro hin
      simp only [List.cons_append, List.nil_append, List.mem_cons, reduceCtorEq, false_or] at hin
      cases hmore _ hin
    have hopen := alive_of_tame hc htame (by decide) hhalt
    rwa [htotal] at hopen
  have hfits : last.recency.Fitting := by
    have hfits := fitting_of_bounded hc (by decide) (by decide)
      ([.store "k" 1 (.ofMillis 10) false, .workWrite] ++ .lapse 2000 2000 :: .wake :: more)
    rwa [htotal] at hfits
  have hunstored : ∀ move ∈ .lapse 2000 2000 :: .wake :: more, move.storedKey? = none := by
    intro move hin
    rcases List.mem_cons.mp hin with rfl | hin
    · rfl
    rcases List.mem_cons.mp hin with rfl | hin
    · rfl
    have hworker := hmore move hin
    cases move <;> first | rfl | cases hworker
  have hleft := gone_when_due_unless_slighted hc (by simp [Move.inStep]) hs hrunning hwrites hreads
    hlast halive hfits rfl rfl (by rw [hclock]; decide)
  have hcoherent : s.Coherent := hs ▸ (coherent_create hc).run _
  rw [Option.eq_none_iff_forall_ne_some]
  intro t ht
  obtain ⟨hslot, hsame⟩ := hcoherent.run_occupant hunstored (by rw [hrun]; exact ht)
  rw [hrun] at hsame
  cases hslots t hslot
  obtain ⟨hslighted, _⟩ := hleft "k" 0 10 ht (hsame.trans hend) (by rw [hclock]; decide)
  rw [hslights] at hslighted
  cases hslighted

end System

end TimedCache
