import TimedCache.Proofs.Cache.Counting

/-!
The count of rejected writes. A write that is refused to its caller is counted, and nothing else
moves the count, so the statistics of a cache tell whether a write of its run was rejected.
-/

namespace TimedCache

namespace System

variable {V : Type} {s : System V}

theorem rejectedWrites_step (s : System V) (move : Move V) :
    (s.step move).cache.counters.rejectedWrites =
      s.cache.counters.rejectedWrites + (s.rejects move).toNat :=
  congrArg (·.rejectedWrites) (s.counters_step move)

theorem rejectedWrites_run_le (s : System V) (moves : List (Move V)) :
    s.cache.counters.rejectedWrites ≤ (s.run moves).cache.counters.rejectedWrites := by
  induction moves generalizing s with
  | nil => exact Nat.le_refl _
  | cons move rest ih =>
    have hstep := s.rejectedWrites_step move
    have hrest := ih (s.step move)
    rw [run_cons]
    omega

/-- Where the count is still zero, no write was rejected on the way. -/
theorem not_rejects_of_run {before after : List (Move V)} {move : Move V}
    (hnone : (s.run (before ++ move :: after)).cache.counters.rejectedWrites = 0) :
    (s.run before).rejects move = false := by
  rw [run_append, run_cons] at hnone
  have hstep := (s.run before).rejectedWrites_step move
  have hrest := ((s.run before).step move).rejectedWrites_run_le after
  rw [← Bool.toNat_eq_zero]
  omega

theorem accepts_of_run {before after : List (Move V)} {key : String} {value : V} {ttl : Span}
    {wait : Bool}
    (hnone : (s.run (before ++ .store key value ttl wait :: after)).cache.counters.rejectedWrites
      = 0) : (s.run before).cache.accepts wait = true := by
  simpa [rejects] using not_rejects_of_run hnone

/-- A worker that lives hears of every deletion if no write was rejected and no call was stranded. -/
theorem unheard_eq_nil {moves : List (Move V)}
    (hnone : (s.run moves).cache.counters.rejectedWrites = 0)
    (hstrands : ∀ move ∈ moves, move.strands = false)
    (halive : (s.run moves).cache.isClosed = false) : s.along unheard? moves = [] := by
  refine List.eq_nil_iff_forall_not_mem.mpr fun t ht => ?_
  obtain ⟨before, move, after, rfl, hunheard⟩ := mem_along ht
  rw [run_append] at halive
  have hopen := ((s.run before).run_onward (move :: after)).2 halive
  have htaken := not_rejects_of_run hnone
  have hmove := hstrands move (List.mem_append_right _ List.mem_cons_self)
  cases move with
  | strandDelete key => cases hmove
  | sendDelete u => simp [unheard?, hopen] at hunheard
  | offerDelete u =>
    unfold unheard? at hunheard
    dsimp only at hunheard
    split at hunheard
    · rename_i hfull
      simp [rejects, hfull.1, hfull.2] at htaken
    · cases hunheard
  | _ => cases hunheard

end System

end TimedCache
