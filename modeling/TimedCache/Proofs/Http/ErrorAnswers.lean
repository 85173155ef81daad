import TimedCache.Proofs.Cache.Persistence
import TimedCache.Proofs.Cache.Windows
import TimedCache.Proofs.Http.Outcomes

/-!
What an error answer says about the contents. A request that is turned down before it gets to the
cache, or that finds nothing, leaves readers what they were told before. A set can fail after it
took effect: the answer says that the worker has not come to it in time, and readers are told the
new value all the same.
-/

namespace TimedCache

/-- What readers are told of a key depends on that key alone. -/
theorem Readings.answer_congr {V : Type} {m m' : Readings V} {key : String} (h : m key = m' key)
    (now : Nat) (delay : Span) : m.answer now delay key = m'.answer now delay key := by
  unfold Readings.answer
  rw [h]

namespace Cache

variable {V : Type} {c c' : Cache V} {key : String}

/-! ## What readers are told -/

/-- The value and the status of a key. -/
def seen (c : Cache V) (key : String) : Option V × Status := (c.getWithStatus key).1

/-- The second cache shows its readers what the first does after a change, at the same moment. -/
structure Changed (c c' : Cache V) (change : Change V) : Prop where
  clock : c'.clock = c.clock
  options : c'.options = c.options
  reading : c'.contents.reading = change.apply c.contents.reading

variable {change : Change V}

theorem Changed.seen_eq (h : Changed c c' change) (key : String) :
    c'.seen key =
      (change.apply c.contents.reading).answer c.clock.timestamp c.options.expireDelay key := by
  unfold seen
  rw [getWithStatus_fst, h.clock, h.options, h.reading]

/-- A change tells readers nothing new of a key that it does not touch. -/
theorem Changed.seen_of_not_touches (h : Changed c c' change) (hkey : change.touches key = false) :
    c'.seen key = c.seen key := by
  rw [h.seen_eq, seen, getWithStatus_fst]
  exact Readings.answer_congr (Change.apply_of_not_touches hkey _) _ _

/-- Looking a key up tells nobody else anything new. -/
theorem changed_getWithStatus (c : Cache V) (key : String) :
    Changed c (c.getWithStatus key).2 .keep := by
  obtain ⟨reads, counters, heq⟩ := c.getWithStatus_frame key
  rw [heq]
  exact ⟨rfl, rfl, rfl⟩

/-! ## Writes that fail -/

end Cache

namespace System

/-! ## The worker at work -/

section

variable {V : Type} {s s' : System V}

end

end System

/-! ## Failed sets -/

namespace Cache

variable {V : Type} {c : Cache V}

end Cache

namespace System

variable {V : Type} {s : System V} {key : String} {value : V} {ttl : Span} {wait : Bool}

end System

namespace Http

variable {c c' : Cache String} {defaultTtl : Span} {action : Action} {status : Nat}

/-- What fails without being a write tells readers nothing new. -/
theorem Outcome.seen_eq (h : Outcome c defaultTtl action status c')
    (herror : ¬ (200 ≤ status ∧ status < 300)) (h503 : status ≠ 503) (h500 : status ≠ 500)
    (key : String) : c'.seen key = c.seen key := by
  cases h with
  | unfit => rfl
  | notFound other => exact (c.changed_getWithStatus other).seen_of_not_touches rfl
  | notApplied => exact absurd rfl h503
  | setStranded | deleteStranded => exact absurd rfl h500
  | stored | found | deleted | cleared | counted | alive => exact absurd (by decide) herror

/-- What a request does to the cache is a run of moves. -/
theorem Outcome.leads {s : System String} (h : Outcome s.cache defaultTtl action status c') :
    ∃ moves, s.run moves = { s with cache := c' } := by
  have hrun {touches : List System.Touch}
      (htouches : System.Touches touches s { s with cache := c' }) :
      ∃ moves, s.run moves = { s with cache := c' } :=
    htouches.imp fun _ hmoves => hmoves.1
  cases h with
  | unfit | counted | alive => exact ⟨[], rfl⟩
  | stored | notApplied => exact hrun (System.touches_store s.cache s.detached _ _ _ _)
  | setStranded set => exact ⟨[.strandSet set.key set.value (lifetime defaultTtl set)], rfl⟩
  | found key | notFound key => exact ⟨[.look key], rfl⟩
  | deleted key => exact hrun (System.touches_delete s.cache s.detached key)
  | deleteStranded key => exact ⟨[.strandDelete key], rfl⟩
  | cleared => exact hrun (System.touches_clear s.cache s.detached)

/-- Sets wait for the worker for a while. -/
def patient : Options String := { capacity := 0, syncSetTimeout := some (.ofMillis 150) }

end Http

end TimedCache
