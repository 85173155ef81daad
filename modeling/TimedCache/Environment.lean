import TimedCache.Options

/-!
Settings taken from environment variables. A variable that is not set, or whose text is not of
its kind, leaves the default in place.
-/

namespace TimedCache

namespace Environment

/-- A decimal number of at most `greatest`, with an optional plus sign and nothing else. -/
def number? (greatest : Nat) (text : String) : Option Nat :=
  let digits := match text.toList with
    | '+' :: rest => rest
    | all => all
  if digits.isEmpty || !digits.all (·.isDigit) then none
  else
    let n := digits.foldl (fun n d => 10 * n + (d.toNat - '0'.toNat)) 0
    if n ≤ greatest then some n else none

def flag? : String → Option Bool
  | "true" => some true
  | "false" => some false
  | _ => none

end Environment

structure Settings where
  maxEntries : Nat := 1000
  /-- Seconds; zero means for ever. -/
  defaultTtl : Nat := 300
  /-- Seconds. -/
  expireDelay : Nat := 0
  /-- Milliseconds; zero means that sets do not wait. -/
  syncSetTimeout : Nat := 0
  syncDelete : Bool := false
  /-- Milliseconds. -/
  timerTick : Nat := 1000
  timerSlots : Nat := 60
  serverPort : Nat := 3000
  deriving DecidableEq, Repr

namespace Settings

open Environment

/-- Reads the settings; `lookup` gives the text of a variable that is set. -/
def ofEnvironment (lookup : String → Option String) : Settings :=
  let word (name : String) (default : Nat) :=
    ((lookup name).bind (number? maxWord)).getD default
  let base : Settings := {}
  { maxEntries := word "MAX_ENTRIES" base.maxEntries
    defaultTtl := word "DEFAULT_TTL" base.defaultTtl
    expireDelay := word "EXPIRE_DELAY" base.expireDelay
    syncSetTimeout := word "SYNC_SET_TIMEOUT_MS" base.syncSetTimeout
    syncDelete := ((lookup "SYNC_DELETE").bind flag?).getD base.syncDelete
    timerTick := word "TIMER_TICK_MS" base.timerTick
    timerSlots := word "TIMER_SLOTS" base.timerSlots
    serverPort := ((lookup "SERVER_PORT").bind (number? 65535)).getD base.serverPort }

def options {V : Type} (s : Settings) : Options V :=
  Options.waitingSets
    { capacity := s.maxEntries
      defaultTtl := .ofSeconds s.defaultTtl
      expireDelay := .ofSeconds s.expireDelay
      syncDelete := s.syncDelete
      tick := .ofMillis s.timerTick
      slots := s.timerSlots }
    (some (.ofMillis s.syncSetTimeout))

end Settings

end TimedCache
