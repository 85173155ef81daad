import TimedCache.Proofs.Cache.Writers

/-!
The ledger of deletions. An entry that a caller takes from its slot to delete it is owed to the
worker until the worker has come to the deletion, unless the worker never hears of it. While the
worker lives each move keeps the ledger balanced, so what was taken is owed, unheard or buried, and
an entry is taken once at most.
-/

namespace TimedCache

/-- The entry that an operation unlinks. -/
def WriteOp.deleted? : WriteOp → Option Serial
  | .delete s => some s
  | _ => none

namespace System

variable {V : Type}

/-- The entry that a caller takes from its slot to delete it. -/
def taken? (s : System V) : Move V → Option Serial
  | .detach key | .strandDelete key => s.cache.contents.occupant? key
  | _ => none

/-- The entry of whose deletion the worker never hears: a caller that does not wait finds the queue
full, or one that waits cannot fix a deadline, or the worker has stopped. -/
def unheard? (s : System V) : Move V → Option Serial
  | .strandDelete key => s.cache.contents.occupant? key
  | .sendDelete t => if t ∈ s.detached ∧ s.cache.isClosed = true then some t else none
  | .offerDelete t =>
    if t ∈ s.detached ∧ (s.cache.isClosed || s.cache.writes.isFull) = true then some t else none
  | _ => none

/-- The entry to whose deletion the worker comes. -/
def buried? (s : System V) : Move V → Option Serial
  | .workWrite => s.cache.writes.items.head?.bind WriteOp.deleted?
  | _ => none

/-- The entries taken from their slots with whose deletion the worker still has to deal. -/
def owed (s : System V) : List Serial :=
  s.detached ++ s.cache.writes.items.filterMap WriteOp.deleted?

variable {s : System V}

theorem mem_owed {t : Serial} :
    t ∈ s.owed ↔ t ∈ s.detached ∨ .delete t ∈ s.cache.writes.items := by
  unfold owed
  rw [List.mem_append, List.mem_filterMap]
  refine or_congr_right ⟨?_, fun hop => ⟨.delete t, hop, rfl⟩⟩
  rintro ⟨op, hop, ht⟩
  cases op <;> cases ht
  exact hop

/-- A worker that lives is told of every deletion whose caller waits for room, if there is a
deadline for the wait. -/
theorem offered_of_unheard {moves : List (Move V)} (halive : (s.run moves).cache.isClosed = false)
    {t : Serial} (ht : t ∈ s.along unheard? moves) :
    .offerDelete t ∈ moves ∨ ∃ key, .strandDelete key ∈ moves := by
  obtain ⟨before, move, after, rfl, hunheard⟩ := mem_along ht
  rw [run_append] at halive
  have hopen := ((s.run before).run_onward (move :: after)).2 halive
  have hmem : move ∈ before ++ move :: after := List.mem_append_right _ List.mem_cons_self
  unfold unheard? at hunheard
  cases move with
  | strandDelete key => exact Or.inr ⟨key, hmem⟩
  | sendDelete u =>
    rw [hopen] at hunheard
    simp at hunheard
  | offerDelete u =>
    dsimp only at hunheard
    split at hunheard
    · cases hunheard
      exact Or.inl hmem
    · cases hunheard
  | _ => cases hunheard

/-! ## The balance -/

theorem filterMap_deleted?_head (items : List WriteOp) :
    items.filterMap WriteOp.deleted? =
      (items.head?.bind WriteOp.deleted?).toList ++ items.tail.filterMap WriteOp.deleted? := by
  cases items with
  | nil => rfl
  | cons op rest =>
    rw [List.filterMap_cons]
    cases op <;> rfl

/-- A worker that goes on comes to one queued operation after the other. -/
theorem run_workWrites (s : System V) (n : Nat)
    (halive : (s.run (List.replicate n .workWrite)).cache.isClosed = false) :
    (s.run (List.replicate n .workWrite)).cache.writes.items = s.cache.writes.items.drop n ∧
      (s.run (List.replicate n .workWrite)).detached = s.detached := by
  induction n generalizing s with
  | zero => exact ⟨rfl, rfl⟩
  | succ n ih =>
    rw [List.replicate_succ, run_cons] at halive ⊢
    obtain ⟨hitems, hdetached⟩ := ih (s.step .workWrite) halive
    refine ⟨?_, hdetached⟩
    rw [hitems, writes_of_worker rfl (((s.step .workWrite).run_onward _).2 halive), if_pos rfl,
      List.drop_tail]

/-- Among the operations that a worker comes to are the deletions. -/
theorem along_buried_workWrites (s : System V) (n : Nat)
    (halive : (s.run (List.replicate n .workWrite)).cache.isClosed = false) :
    s.along buried? (List.replicate n .workWrite) =
      (s.cache.writes.items.take n).filterMap WriteOp.deleted? := by
  induction n generalizing s with
  | zero => rfl
  | succ n ih =>
    rw [List.replicate_succ, run_cons] at halive
    have hitems : (s.step .workWrite).cache.writes.items = s.cache.writes.items.tail :=
      (writes_of_worker rfl (((s.step .workWrite).run_onward _).2 halive)).trans (if_pos rfl)
    rw [List.replicate_succ, along_cons, ih _ halive, hitems]
    cases hqueue : s.cache.writes.items with
    | nil =>
      unfold buried?
      rw [hqueue]
      simp
    | cons op rest =>
      unfold buried?
      rw [hqueue]
      cases op <;> rfl

/-- A deletion whose caller waits for room, while the worker lives. -/
theorem run_detach_sendDelete (s : System V) {key : String} {t : Serial}
    (ht : s.cache.contents.occupant? key = some t) (halive : s.cache.isClosed = false) :
    (s.run [.detach key, .sendDelete t]).cache.writes.items =
        s.cache.writes.items ++ [.delete t] ∧
      (s.run [.detach key, .sendDelete t]).detached = s.detached ∧
      s.along taken? [.detach key, .sendDelete t] = [t] ∧
      s.along unheard? [.detach key, .sendDelete t] = [] := by
  have htaken : s.along taken? [.detach key, .sendDelete t] =
      (s.cache.contents.occupant? key).toList ++ [] := rfl
  have hrefused : s.along unheard? [.detach key, .sendDelete t] =
      ((s.step (.detach key)).unheard? (.sendDelete t)).toList ++ [] := rfl
  have hkept : (s.step (.detach key)).unheard? (.sendDelete t) = none := by
    rw [step_detach]
    exact if_neg fun h => absurd (halive.symm.trans h.2) Bool.false_ne_true
  rw [run_detach ht halive, htaken, hrefused, hkept, ht]
  exact ⟨rfl, rfl, rfl, rfl⟩

/-- The first value that is stored is deleted again before the worker does anything. -/
theorem run_store_delete {options : Options V} {clock : Clock} {c : Cache V}
    (hc : Cache.create options clock = .ok c) (key : String) (value : V) (ttl : Span) (wait : Bool) :
    (({ cache := c } : System V).run [.store key value ttl wait, .detach key,
        .sendDelete c.nextSerial]).cache.writes.items = [.set c.nextSerial, .delete c.nextSerial] ∧
      (({ cache := c } : System V).run [.store key value ttl wait, .detach key,
        .sendDelete c.nextSerial]).detached = [] ∧
      ({ cache := c } : System V).along taken? [.store key value ttl wait, .detach key,
        .sendDelete c.nextSerial] = [c.nextSerial] := by
  obtain ⟨hslot, hqueued⟩ := Cache.lodge_create hc key value ttl wait
  have halive : (c.lodge key value ttl wait).2.isClosed = false := by
    obtain ⟨_, _, _, hclosed, _⟩ := c.lodge_frame key value ttl wait
    obtain ⟨contents, _, rfl⟩ := Cache.create_eq_ok hc
    exact hclosed
  have hfirst : ({ cache := c } : System V).step (.store key value ttl wait) =
      { cache := (c.lodge key value ttl wait).2 } := rfl
  rw [along_cons, run_cons, hfirst]
  generalize (c.lodge key value ttl wait).2 = stored at hslot hqueued halive ⊢
  obtain ⟨hitems, htold, htaken, _⟩ :=
    ({ cache := stored } : System V).run_detach_sendDelete hslot halive
  rw [hitems, htold, htaken, hqueued]
  exact ⟨rfl, rfl, rfl⟩

/-- A detached entry is handed over to the queue or refused. -/
theorem count_owed_handed {u : Serial} (hu : u ∈ s.detached) {c : Cache V} {refused : Bool}
    (hitems : c.writes.items =
      if refused then s.cache.writes.items else s.cache.writes.items ++ [.delete u]) (t : Serial) :
    ({ cache := c, detached := s.detached.erase u } : System V).owed.count t +
        (if refused = true then some u else none).toList.count t = s.owed.count t := by
  have hcount := (List.perm_cons_erase hu).count_eq t
  rw [List.count_cons] at hcount
  unfold owed
  rw [hitems, List.count_append, List.count_append, hcount]
  cases refused with
  | true =>
    change _ + _ + [u].count t = _
    rw [List.count_singleton]
    dsimp only
    rw [if_pos rfl]
    omega
  | false =>
    change _ + ((s.cache.writes.items ++ [WriteOp.delete u]).filterMap
      WriteOp.deleted?).count t + 0 = _
    rw [List.filterMap_append, List.count_append]
    change (s.detached.erase u).count t + (_ + [u].count t) + 0 = _
    rw [List.count_singleton]
    omega

/-- What was owed or is taken is owed or unheard while the worker does nothing. -/
theorem count_owed_caller (s : System V) {move : Move V} (hcaller : move.ofWorker = false)
    (hmove : move ≠ .halt) (t : Serial) :
    (s.step move).owed.count t + (s.unheard? move).toList.count t =
      s.owed.count t + (s.taken? move).toList.count t := by
  have hidle (hdetached : (s.step move).detached = s.detached)
      (hitems : (s.step move).cache.writes.items.filterMap WriteOp.deleted? =
        s.cache.writes.items.filterMap WriteOp.deleted?) :
      (s.step move).owed.count t = s.owed.count t := by
    unfold owed
    rw [hdetached, hitems]
  have hrequest {op : WriteOp} (hop : op.deleted? = none) :
      (s.cache.writes.items ++ [op]).filterMap WriteOp.deleted? =
        s.cache.writes.items.filterMap WriteOp.deleted? := by
    rw [List.filterMap_append, List.filterMap_cons, hop]
    exact List.append_nil _
  cases move with
  | look | board | askLoader | askBatchLoader | lapse | wake | pace | pause | unpause =>
    exact hidle rfl (congrArg (·.items.filterMap WriteOp.deleted?) (s.step_of_quiet rfl).2.2.1)
  | store key value ttl wait =>
    obtain ⟨_, _, _, _, hitems⟩ := s.cache.lodge_frame key value ttl wait
    refine hidle rfl ?_
    change (s.cache.lodge key value ttl wait).2.writes.items.filterMap WriteOp.deleted? = _
    rcases hitems with heq | ⟨u, heq | heq⟩ <;> rw [heq]
    · exact hrequest rfl
    · exact hrequest rfl
  | strandSet key value ttl => exact hidle rfl (by rw [step_strandSet])
  | strandDelete key =>
    have howed := hidle rfl (by rw [step_strandDelete])
    exact congrArg (· + (s.cache.contents.occupant? key).toList.count t) howed
  | detach key =>
    rw [step_detach]
    unfold owed
    change (_ ++ s.detached ++ _ : List Serial).count t =
      _ + (s.cache.contents.occupant? key).toList.count t
    simp only [List.count_append]
    omega
  | sendDelete u =>
    unfold unheard?
    rw [step_sendDelete]
    by_cases hu : u ∈ s.detached
    · simp only [hu, if_true, true_and]
      refine count_owed_handed hu ?_ t
      cases s.cache.isClosed <;> rfl
    · simp only [hu, false_and, if_false]
      rfl
  | offerDelete u =>
    unfold unheard?
    rw [step_offerDelete]
    by_cases hu : u ∈ s.detached
    · simp only [hu, if_true, true_and]
      refine count_owed_handed hu ?_ t
      cases s.cache.isClosed || s.cache.writes.isFull <;> rfl
    · simp only [hu, false_and, if_false]
      rfl
  | clear =>
    refine hidle rfl ?_
    rw [step_clear]
    cases s.cache.isClosed with
    | true => rfl
    | false => exact hrequest rfl
  | flush =>
    refine hidle rfl ?_
    rw [step_flush]
    cases s.cache.isClosed with
    | true => rfl
    | false => exact hrequest rfl
  | halt => exact absurd rfl hmove
  | _ => cases hcaller

/-- What was owed is owed or buried when the worker has done something. -/
theorem count_owed_worker {move : Move V} (hworker : move.ofWorker = true)
    (halive : (s.step move).cache.isClosed = false) (t : Serial) :
    (s.step move).owed.count t + (s.buried? move).toList.count t = s.owed.count t := by
  have hitems := writes_of_worker hworker halive
  cases move with
  | workWrite =>
    change (s.detached ++ (s.step .workWrite).cache.writes.items.filterMap
      WriteOp.deleted?).count t +
        (s.cache.writes.items.head?.bind WriteOp.deleted?).toList.count t = s.owed.count t
    unfold owed
    rw [hitems, if_pos rfl, filterMap_deleted?_head s.cache.writes.items]
    simp only [List.count_append]
    omega
  | workRead | workFired =>
    change (s.detached ++ _).count t + 0 = (s.detached ++ _).count t
    rw [hitems]
    rfl
  | _ => cases hworker

/-- What was owed or is taken is owed, unheard or buried. -/
theorem count_owed_step (s : System V) (move : Move V)
    (halive : (s.step move).cache.isClosed = false) (t : Serial) :
    (s.step move).owed.count t + (s.unheard? move).toList.count t +
        (s.buried? move).toList.count t =
      s.owed.count t + (s.taken? move).toList.count t := by
  cases hworker : move.ofWorker with
  | false =>
    have hmove : move ≠ .halt := by
      rintro rfl
      cases halive
    have hburied : s.buried? move = none := by
      cases move <;> first | rfl | cases hworker
    rw [hburied]
    exact s.count_owed_caller hworker hmove t
  | true =>
    have hnone : s.unheard? move = none ∧ s.taken? move = none := by
      cases move <;> first | exact ⟨rfl, rfl⟩ | cases hworker
    rw [hnone.1, hnone.2]
    exact count_owed_worker hworker halive t

/-- What was owed is owed still, unless the worker never hears of it or it is buried. -/
theorem owed_step (s : System V) {move : Move V}
    (halive : (s.step move).cache.isClosed = false) {t : Serial} (ht : t ∈ s.owed) :
    t ∈ (s.step move).owed ∨ s.unheard? move = some t ∨ s.buried? move = some t := by
  have hbalance := s.count_owed_step move halive t
  have hbefore := List.count_pos_iff.mpr ht
  rw [← List.count_pos_iff, ← Option.mem_toList, ← Option.mem_toList, ← List.count_pos_iff,
    ← List.count_pos_iff]
  omega

/-- A step of the worker takes the first operation of the queue, or none; if it stops the worker,
the others are lost. -/
theorem writes_of_worker_sublist {move : Move V} (hworker : move.ofWorker = true) :
    (s.step move).cache.writes.items.Sublist
      (if move matches .workWrite then s.cache.writes.items.tail else s.cache.writes.items) := by
  have haside {base c : Cache V} (h : Cache.Aside base c) {items : List WriteOp}
      (hbase : base.writes.items = items) : c.writes.items.Sublist items := by
    rcases h.queues with ⟨hsame, _⟩ | ⟨hclosed, _⟩
    · rw [hsame, hbase]
    · rw [hclosed]
      exact List.nil_sublist _
  cases move with
  | workWrite =>
    change s.cache.workWrite.writes.items.Sublist s.cache.writes.items.tail
    cases hitems : s.cache.writes.items with
    | nil =>
      rw [Cache.workWrite_of_nil hitems, hitems]
      exact List.Sublist.refl _
    | cons op rest =>
      obtain ⟨hworked, hwrites, _⟩ := Cache.workWrite_aside hitems
      exact haside hworked (congrArg (·.items) hwrites)
  | workRead =>
    obtain ⟨reads, places, heq⟩ := s.cache.workRead_frame
    change s.cache.workRead.writes.items.Sublist s.cache.writes.items
    rw [heq]
  | workFired =>
    obtain ⟨base, hworked, hwrites, _⟩ := s.cache.workFired_aside
    exact haside hworked (congrArg (·.items) hwrites)
  | _ => cases hworker

/-- Only what a caller takes is added to what is owed, and what is buried is not owed any more,
whether or not the worker goes on. -/
theorem count_owed_le_step (s : System V) (move : Move V) (t : Serial) :
    (s.step move).owed.count t + (s.buried? move).toList.count t ≤
      s.owed.count t + (s.taken? move).toList.count t := by
  cases hworker : move.ofWorker with
  | false =>
    have hburied : s.buried? move = none := by
      cases move <;> first | rfl | cases hworker
    rw [hburied, Option.toList_none, List.count_nil]
    by_cases hmove : move = .halt
    · subst hmove
      change (s.detached ++ []).count t + 0 ≤ (s.detached ++ _).count t + 0
      simp only [List.count_append, List.count_nil]
      omega
    · have hcount := s.count_owed_caller hworker hmove t
      omega
  | true =>
    have htail := ((writes_of_worker_sublist (s := s) hworker).filterMap
      WriteOp.deleted?).count_le t
    have hhead := congrArg (List.count t) (filterMap_deleted?_head s.cache.writes.items)
    rw [List.count_append] at hhead
    have hnow : (s.step move).detached = s.detached ∧ s.taken? move = none := by
      cases move <;> first | exact ⟨rfl, rfl⟩ | cases hworker
    unfold owed
    rw [hnow.1, hnow.2, List.count_append, List.count_append, Option.toList_none, List.count_nil]
    cases move with
    | workWrite =>
      change _ + (s.cache.writes.items.head?.bind WriteOp.deleted?).toList.count t ≤ _
      dsimp only at htail
      rw [if_pos rfl] at htail
      omega
    | workRead | workFired =>
      change _ + 0 ≤ _
      dsimp only at htail
      rw [if_neg Bool.false_ne_true] at htail
      omega
    | _ => cases hworker

theorem count_owed_run (s : System V) (moves : List (Move V))
    (halive : (s.run moves).cache.isClosed = false) (t : Serial) :
    (s.run moves).owed.count t + (s.along unheard? moves).count t +
        (s.along buried? moves).count t =
      s.owed.count t + (s.along taken? moves).count t := by
  induction moves generalizing s with
  | nil => rfl
  | cons move rest ih =>
    have hstep := s.count_owed_step move (((s.step move).run_onward rest).2 halive) t
    have hrest := ih (s.step move) halive
    rw [run_cons, along_cons, along_cons, along_cons, List.count_append, List.count_append,
      List.count_append]
    omega

/-! ## Taken once -/

/-- An entry without a slot is not taken any more. -/
theorem Coherent.not_taken_of_gone (h : s.Coherent) {t : Serial}
    (hgone : s.cache.contents.Gone t) (moves : List (Move V)) : t ∉ s.along taken? moves := by
  induction moves generalizing s with
  | nil => exact List.not_mem_nil
  | cons move rest ih =>
    intro hin
    rcases List.mem_append.mp hin with hnow | hlater
    · cases move with
      | detach key => exact hgone.2 key (Option.mem_toList.mp hnow)
      | strandDelete key => exact hgone.2 key (Option.mem_toList.mp hnow)
      | _ => cases hnow
    · exact ih (h.step move) ((h.step_follows move).ages.gone t hgone) hlater

theorem Coherent.count_taken_le (h : s.Coherent) (moves : List (Move V)) (t : Serial) :
    (s.along taken? moves).count t ≤ 1 := by
  induction moves generalizing s with
  | nil => exact Nat.zero_le 1
  | cons move rest ih =>
    rw [along_cons, List.count_append]
    by_cases hnow : s.taken? move = some t
    · have hgone : (s.step move).cache.contents.Gone t := by
        cases move with
        | detach key =>
          rw [step_detach]
          exact h.keyed.gone_takeKey hnow
        | strandDelete key =>
          rw [step_strandDelete]
          exact h.keyed.gone_takeKey hnow
        | _ => cases hnow
      have hrest := (h.step move).not_taken_of_gone hgone rest
      rw [hnow, List.count_eq_zero.mpr hrest]
      exact List.count_le_length
    · have hnone : (s.taken? move).toList.count t = 0 :=
        List.count_eq_zero.mpr fun hin => hnow (Option.mem_toList.mp hin)
      have hrest := ih (h.step move)
      omega

end System

end TimedCache
