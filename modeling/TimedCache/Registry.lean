import TimedCache.Cache.Access
import TimedCache.Cache.Lifecycle

/-!
Caches by name. A name is taken once, until all caches are closed together.
-/

namespace TimedCache

structure Registry (V : Type) where
  caches : List (String × Cache V) := []

namespace Registry

variable {V : Type}

def find? (r : Registry V) (name : String) : Option (Cache V) := r.caches.lookup name

/-- Makes a cache and registers it; a taken name is refused before anything is made. -/
def register (r : Registry V) (name : String) (options : Options V) (clock : Clock) :
    Except Overflow (Except CacheError (Cache V) × Registry V) :=
  match r.find? name with
  | some _ => .ok (.error (.alreadyRegistered name), r)
  | none =>
    (Cache.allocate options clock).map fun cache =>
      (.ok cache, { caches := (name, cache) :: r.caches })

def update (r : Registry V) (name : String) (cache : Cache V) : Registry V :=
  { caches := r.caches.map fun entry => if entry.1 == name then (name, cache) else entry }

def names (r : Registry V) : List String :=
  (r.caches.map (·.1)).mergeSort fun a b => a < b || a == b

/-- Closes every cache and forgets it; what others still hold of them is handed out. -/
def closeAll (r : Registry V) : List (String × Cache V) × Registry V :=
  (r.caches.map fun entry => (entry.1, entry.2.close), {})

end Registry

end TimedCache
