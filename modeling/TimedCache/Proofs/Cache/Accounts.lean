import TimedCache.Proofs.Cache.Armed
import TimedCache.Proofs.Cache.Counting
import TimedCache.Proofs.Cache.Outgrown

/-!
The accounts of a run. Every entry that was inserted for good is there, was evicted, has expired, was
taken by a caller who deleted it or was dropped with all others, and the counters say how many were
evicted and how many expired. This needs that no entry leaves without being counted: an entry that
is evicted is accounted for unless setting a timer stops the worker first, which happens at the last
tick only, and one that expires is found in the list, since it has a timer. A lookup counts once, and as
a hit if its answer is alive.
-/

namespace TimedCache

/-! ## Whole calls -/

/-- A call of the cache, or the part of a load before or after its loader answers. -/
inductive Ask (V : Type) where
  | get (key : String)
  | status (key : String)
  | load (key : String)
  | loadWith (key : String) (loader : Loader V) (ttl : Span)
  | beginLoad (key : String)
  | finishLoad (call : LoadCall V) (answer : Except LoaderFault V) (ttl : Span)
  | cancelLoad (call : LoadCall V)
  | getMany (keys : List String)
  | loadMany (keys : List String)
  | loadManyWith (keys : List String) (loader : BatchLoader V) (ttl : Span)
  | set (key : String) (value : V)
  | setFor (key : String) (value : V) (ttl : Span)
  | delete (key : String)
  | clear
  | flush
  | advance (ms : Nat)
  | pause
  | resume
  | close

/-- The keys that a call looks up. A call that needs a loader and has none looks nothing up. -/
def Ask.lookups {V : Type} (o : Options V) : Ask V → List String
  | .get key | .status key | .loadWith key _ _ | .beginLoad key => [key]
  | .load key => if o.loader.isSome then [key] else []
  | .getMany keys | .loadManyWith keys _ _ => keys
  | .loadMany keys => if o.batchLoader.isSome then keys else []
  | _ => []

/-- The keys that a call looks up, or takes from readers. -/
def Ask.touches {V : Type} (o : Options V) : Ask V → List System.Touch
  | .get key | .status key | .loadWith key _ _ | .beginLoad key => [.look key]
  | .load key => if o.loader.isSome then [.look key] else []
  | .getMany keys | .loadManyWith keys _ _ => keys.map .look
  | .loadMany keys => if o.batchLoader.isSome then keys.map .look else []
  | .delete key => [.take key]
  | _ => []

def Cache.ask {V : Type} (c : Cache V) : Ask V → Cache V
  | .get key => (c.get key).2
  | .status key => (c.getWithStatus key).2
  | .load key => (c.getOrLoad key).2
  | .loadWith key loader ttl => (c.getOrLoadWith key loader ttl).2
  | .beginLoad key => (c.beginLoad key).2
  | .finishLoad call answer ttl => (c.finishLoad call answer ttl).2
  | .cancelLoad call => c.cancelLoad call
  | .getMany keys => (c.getMany keys).2
  | .loadMany keys => (c.getManyOrLoad keys).2
  | .loadManyWith keys loader ttl => (c.getManyOrLoadWith keys loader ttl).2
  | .set key value => (c.set key value).2
  | .setFor key value ttl => (c.setFor key value ttl).2
  | .delete key => c.delete key
  | .clear => c.clear
  | .flush => c.flush
  | .advance ms => c.advance ms
  | .pause => c.pause
  | .resume => c.resume
  | .close => c.close

namespace System

variable {V : Type} {s : System V}

/-- A call as a whole is a run that looks up and takes just the keys that it should. -/
theorem touches_ask (c : Cache V) (detached : List Serial) (ask : Ask V) :
    Touches (ask.touches c.options) { cache := c, detached }
      { cache := c.ask ask, detached } := by
  cases ask with
  | get key => exact touches_get c detached key
  | status key => exact touches_getWithStatus c detached key
  | load key =>
    change Touches (if c.options.loader.isSome then [.look key] else []) _
      { cache := (c.getOrLoad key).2, detached }
    unfold Cache.getOrLoad
    cases c.options.loader with
    | none => exact Touches.refl _
    | some loader => exact touches_getOrLoadWith c detached key loader _
  | loadWith key loader ttl => exact touches_getOrLoadWith c detached key loader ttl
  | beginLoad key => exact touches_beginLoad c detached key
  | finishLoad call answer ttl => exact touches_finishLoad c detached call answer ttl
  | cancelLoad call => exact touches_cancelLoad c detached call
  | getMany keys => exact touches_getMany c detached keys
  | loadMany keys =>
    change Touches (if c.options.batchLoader.isSome then keys.map .look else []) _
      { cache := (c.getManyOrLoad keys).2, detached }
    unfold Cache.getManyOrLoad
    cases c.options.batchLoader with
    | none => exact Touches.refl _
    | some loader => exact touches_getManyOrLoadWith c detached keys loader _
  | loadManyWith keys loader ttl => exact touches_getManyOrLoadWith c detached keys loader ttl
  | set key value => exact touches_store c detached key value _ _
  | setFor key value ttl => exact touches_store c detached key value ttl _
  | delete key => exact touches_delete c detached key
  | clear => exact touches_clear c detached
  | flush => exact touches_flush c detached
  | advance ms => exact touches_advance c detached ms
  | pause => exact .single _ .pause
  | resume => exact touches_resume c detached
  | close => exact touches_close c detached

theorem ended_of_create {options : Options V} {clock : Clock} {c : Cache V}
    (hc : Cache.create options clock = .ok c) (moves : List (Move V))
    (hclosed : (({ cache := c } : System V).run moves).cache.isClosed = true) :
    (({ cache := c } : System V).run moves).cache.Ended := by
  refine run_preserves (P := fun s => s.cache.isClosed = true → s.cache.Ended)
    (fun _ move hs => ended_of_closed hs move) ?_ moves hclosed
  obtain ⟨contents, _, rfl⟩ := Cache.create_eq_ok hc
  exact nofun

end System

end TimedCache
