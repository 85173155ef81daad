import TimedCache.Cache.Worker

/-!
The course of time, and rests and the end of the worker. Time moves both clocks, and the timers
that wake then fire. A resting worker leaves its queues alone while timers go on firing; an ended one
leaves the contents to the readers for good.
-/

namespace TimedCache.Cache

variable {V : Type}

/-- Time passes on the clocks, and nobody wakes the timers yet. -/
def lapse (c : Cache V) (ms steady : Nat) : Cache V := { c with clock := c.clock.lapse ms steady }

def wake (c : Cache V) : Cache V :=
  let (due, expiry) := c.expiry.wake c.clock
  { c with expiry, fired := c.fired ++ due }

def advance (c : Cache V) (ms : Nat) : Cache V := (c.lapse ms ms).wake

/-- Sends the worker to rest. A worker that has ended does not rest. -/
def pause (c : Cache V) : Cache V := { c with paused := !c.isClosed }

def resume (c : Cache V) : Cache V := ({ c with paused := false } : Cache V).catchUp

/-- Ends the worker after the operations queued so far. A resting worker is woken first. -/
def close (c : Cache V) : Cache V :=
  if c.paused then c.resume.halt else c.applyWrites.halt

end TimedCache.Cache
