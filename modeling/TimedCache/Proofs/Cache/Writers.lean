import TimedCache.Proofs.Cache.Capacity

/-!
A cache whose callers only write. A deed is a caller's part of a set or a delete, a turn of the
clock or of the worker's rest, or one step of the worker. Unlike a move, a deletion hands its
operation in at once. Runs of deeds are runs of moves, so what holds of those holds here.
-/

namespace TimedCache

inductive Deed (V : Type) where
  | store (key : String) (value : V) (ttl : Span) (wait : Bool)
  | discard (key : String)
  | advance (ms : Nat)
  | pace (stint : Option Nat)
  | pause
  | unpause
  | workWrite
  | workRead
  | workFired

namespace Cache

variable {V : Type}

/-- Tells the worker of a deletion; a caller that waits for the deletion may be refused. -/
def handOver (c : Cache V) (s : Serial) : Bool × Cache V :=
  if c.options.syncDelete then c.handIn (.delete s) true else c.sendDelete s

/-- What a caller who deletes a key does before it waits; tells whether nothing was refused. -/
def discard (c : Cache V) (key : String) : Bool × Cache V :=
  match c.detach key with
  | (none, c) => (true, c)
  | (some s, c) => c.handOver s

def act (c : Cache V) : Deed V → Cache V
  | .store key value ttl wait => (c.lodge key value ttl wait).2
  | .discard key => (c.discard key).2
  | .advance ms => c.advance ms
  | .pace stint => { c with stint }
  | .pause => c.pause
  | .unpause => { c with paused := false }
  | .workWrite => c.workWrite
  | .workRead => c.workRead
  | .workFired => c.workFired

def actAll (c : Cache V) (deeds : List (Deed V)) : Cache V := deeds.foldl act c

theorem actAll_cons (c : Cache V) (deed : Deed V) (deeds : List (Deed V)) :
    c.actAll (deed :: deeds) = (c.act deed).actAll deeds := rfl

theorem actAll_append (c : Cache V) (deeds more : List (Deed V)) :
    c.actAll (deeds ++ more) = (c.actAll deeds).actAll more := List.foldl_append

/-- The contents without the occupant of a key. -/
def vacated (c : Cache V) (key : String) : Cache V :=
  { c with contents := (c.contents.takeKey key).2 }

theorem discard_of_vacant {c : Cache V} {key : String} (h : c.contents.occupant? key = none) :
    c.discard key = (true, c.vacated key) := by
  unfold discard
  rw [detach_eq, h]
  rfl

theorem discard_of_occupant {c : Cache V} {key : String} {s : Serial}
    (h : c.contents.occupant? key = some s) : c.discard key = (c.vacated key).handOver s := by
  unfold discard
  rw [detach_eq, h]
  rfl

theorem handOver_eq (c : Cache V) (s : Serial) :
    c.handOver s = (true, c.queued (.delete s)) ∨
      ∃ counters, c.handOver s = (false, { c with counters }) := by
  unfold handOver sendDelete
  split
  · rw [handIn_eq]
    split
    · exact Or.inl rfl
    · exact Or.inr ⟨_, rfl⟩
  · rw [send_eq]
    split
    · exact Or.inr ⟨c.counters, rfl⟩
    · exact Or.inl rfl

/-- A deletion as a whole is its caller's part, and what the worker does while the caller waits. -/
theorem delete_eq_discard (c : Cache V) (key : String) :
    c.delete key = (c.discard key).2 ∨ c.delete key = (c.discard key).2.attend true := by
  unfold delete discard
  generalize c.detach key = result
  obtain ⟨_ | s, c'⟩ := result
  · exact Or.inl rfl
  · dsimp only
    unfold handOver
    split
    · exact Or.inr rfl
    · exact Or.inl rfl

end Cache

/-- The moves that a deed comes down to. -/
def Deed.moves {V : Type} (c : Cache V) : Deed V → List (Move V)
  | .store key value ttl wait => [.store key value ttl wait]
  | .discard key =>
    match c.contents.occupant? key with
    | none => [.detach key]
    | some s =>
      if c.options.syncDelete && !(c.waits true && c.findsRoom) then [.detach key, .offerDelete s]
      else [.detach key, .sendDelete s]
  | .advance ms => [.lapse ms ms, .wake]
  | .pace stint => [.pace stint]
  | .pause => [.pause]
  | .unpause => [.unpause]
  | .workWrite => [.workWrite]
  | .workRead => [.workRead]
  | .workFired => [.workFired]

namespace System

variable {V : Type} {c : Cache V}

theorem run_moves (c : Cache V) (deed : Deed V) :
    ({ cache := c } : System V).run (deed.moves c) = { cache := c.act deed } := by
  cases deed with
  | discard key =>
    have htake : ({ cache := c } : System V).step (.detach key) =
        { cache := c.vacated key, detached := (c.contents.occupant? key).toList ++ [] } :=
      step_detach _ key
    unfold Deed.moves Cache.act
    dsimp only
    cases hs : c.contents.occupant? key with
    | none =>
      rw [hs] at htake
      rw [Cache.discard_of_vacant hs]
      exact htake
    | some s =>
      rw [hs] at htake
      rw [Cache.discard_of_occupant hs]
      have hmem : s ∈ (some s).toList ++ [] := by simp
      have herase : ((some s).toList ++ []).erase s = [] := by simp
      have hroom : ((c.vacated key).waits true && (c.vacated key).findsRoom) =
          (c.waits true && c.findsRoom) := rfl
      have hsend : ({ cache := c } : System V).run [.detach key, .sendDelete s] =
          { cache := ((c.vacated key).sendDelete s).2 } := by
        rw [run_cons, htake]
        change (if s ∈ _ then _ else _) = _
        rw [if_pos hmem, herase]
      have hoffer : ({ cache := c } : System V).run [.detach key, .offerDelete s] =
          { cache := ((c.vacated key).offer (.delete s)).2 } := by
        rw [run_cons, htake]
        change (if s ∈ _ then _ else _) = _
        rw [if_pos hmem, herase]
      dsimp only
      unfold Cache.handOver
      change _ = ({ cache := (if c.options.syncDelete then _ else _ : Bool × Cache V).2 } :
        System V)
      cases hsync : c.options.syncDelete with
      | false => exact hsend
      | true =>
        unfold Cache.handIn
        rw [if_pos rfl, hroom]
        cases hw : c.waits true && c.findsRoom with
        | true => exact hsend
        | false => exact hoffer
  | _ => rfl

end System

namespace Cache

variable {V : Type}

theorem act_later (c : Cache V) (deed : Deed V) : Later c (c.act deed) := by
  have honward := System.run_onward { cache := c } (deed.moves c)
  have hoptions := System.run_options { cache := c } (deed.moves c)
  rw [System.run_moves] at honward hoptions
  have hlater (htimestamp : c.clock.timestamp ≤ (c.act deed).clock.timestamp)
      (hreads : (c.act deed).reads = c.reads) : Later c (c.act deed) := by
    refine ⟨honward.1, honward.2, htimestamp, hoptions, ?_⟩
    rw [hreads]
    exact id
  cases deed with
  | store key value ttl wait =>
    obtain ⟨_, hclock, _⟩ := c.lodge_frame key value ttl wait
    exact hlater (Nat.le_of_eq (congrArg Clock.timestamp hclock.symm))
      (c.reads_lodge key value ttl wait)
  | discard key =>
    have hsame : (c.discard key).2.clock = c.clock ∧ (c.discard key).2.reads = c.reads := by
      cases hs : c.contents.occupant? key with
      | none =>
        rw [discard_of_vacant hs]
        exact ⟨rfl, rfl⟩
      | some s =>
        rw [discard_of_occupant hs]
        rcases (c.vacated key).handOver_eq s with heq | ⟨counters, heq⟩ <;> rw [heq] <;>
          exact ⟨rfl, rfl⟩
    exact hlater (Nat.le_of_eq (congrArg Clock.timestamp hsame.1.symm)) hsame.2
  | advance ms => exact hlater (c.clock.timestamp_mono ms ms) rfl
  | pace | pause | unpause => exact hlater (Nat.le_refl _) rfl
  | workWrite => exact c.later_workWrite
  | workRead => exact c.later_workRead
  | workFired => exact c.later_workFired

theorem actAll_later (c : Cache V) (deeds : List (Deed V)) : Later c (c.actAll deeds) := by
  induction deeds generalizing c with
  | nil => exact .refl c
  | cons deed rest ih => exact (c.act_later deed).trans (ih _)

end Cache

namespace System

variable {V : Type} {c : Cache V}

theorem Arranged.act (h : ({ cache := c } : System V).Arranged) (deed : Deed V) :
    ({ cache := c.act deed } : System V).Arranged := by
  rw [← run_moves]
  exact run_preserves (fun _ move hs => hs.step move) h _

theorem Arranged.actAll (h : ({ cache := c } : System V).Arranged) (deeds : List (Deed V)) :
    ({ cache := c.actAll deeds } : System V).Arranged := by
  induction deeds generalizing c with
  | nil => exact h
  | cons deed rest ih => exact ih (h.act deed)

end System

end TimedCache
