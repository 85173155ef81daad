import TimedCache.Proofs.Wheel.Advance

/-!
What a wheel hands out over a run of requests. A task waits under its deadline until it is dropped
or the wheel moves to the deadline or beyond; it is handed out by that move, once, and by no other
request. What one move hands out comes in the order of the deadlines.
-/

namespace TimedCache

namespace Wheel

/-- What is asked of a wheel. Deadlines and targets are words. -/
inductive Request (α : Type) where
  | insert (deadline : UInt64) (payload : α)
  | cancel (id : TimerId)
  | clear
  | advanceTo (target : UInt64)

namespace Request

variable {α : Type}

/-- Whether the request moves a wheel to a deadline or beyond. -/
def reaches (deadline : Nat) : Request α → Bool
  | advanceTo target => decide (deadline ≤ target.toNat)
  | _ => false

/-- Whether the request forgets a task before its deadline. -/
def drops (id : TimerId) : Request α → Bool
  | cancel other => decide (other = id)
  | clear => true
  | _ => false

/-- Whether no task of this id and deadline waits any more after the request. -/
def ends (id : TimerId) (deadline : Nat) (r : Request α) : Bool := r.drops id || r.reaches deadline

end Request

variable {α : Type} {w w' : Wheel α} {id : TimerId} {task : Task α}

/-- Serves a request and hands out what became due. A wheel without a next tick takes no task. -/
def answer (w : Wheel α) : Request α → List (TimerId × α) × Wheel α
  | .insert deadline payload =>
    match w.insert deadline.toNat payload with
    | .ok (_, w) => ([], w)
    | .error _ => ([], w)
  | .cancel id => ([], (w.cancel id).2)
  | .clear => ([], w.clear)
  | .advanceTo target => w.advanceTo target.toNat

def after (w : Wheel α) (requests : List (Request α)) : Wheel α :=
  requests.foldl (fun w r => (w.answer r).2) w

theorem after_cons (w : Wheel α) (r : Request α) (requests : List (Request α)) :
    w.after (r :: requests) = (w.answer r).2.after requests := rfl

/-! ## Requests one by one -/

theorem insert_of_next (hlast : w.current < maxWord) (deadline : Nat) (payload : α) :
    w.insert deadline payload = .ok (w.add deadline payload) := by
  unfold insert atLastTick
  rw [if_neg (by simpa using hlast)]

theorem answer_insert (w : Wheel α) (deadline : UInt64) (payload : α) :
    w.answer (.insert deadline payload) =
      ([], if w.atLastTick then w else (w.add deadline.toNat payload).2) := by
  unfold answer insert
  cases w.atLastTick <;> rfl

theorem toNat_le_maxWord (word : UInt64) : word.toNat ≤ maxWord :=
  Nat.le_of_lt_succ word.toNat_lt

theorem Placed.answer (h : w.Placed) (r : Request α) : (w.answer r).2.Placed := by
  cases r with
  | insert deadline payload =>
    rw [answer_insert]
    cases hlast : w.atLastTick with
    | true => exact h
    | false => exact h.add payload (toNat_le_maxWord deadline) hlast
  | cancel other => exact h.cancel other
  | clear => exact h.clear
  | advanceTo target => exact (h.advanceTo target.toNat).2.1

theorem Placed.after (h : w.Placed) (requests : List (Request α)) :
    (w.after requests).Placed := by
  induction requests generalizing w with
  | nil => exact h
  | cons r rest ih => exact ih (h.answer r)

theorem Placed.tasks_answer (h : w.Placed) (htask : w.tasks[id]? = some task) (r : Request α) :
    (w.answer r).2.tasks[id]? = if r.ends id task.deadline then none else some task := by
  cases r with
  | insert deadline payload =>
    have hkept : (w.answer (.insert deadline payload)).2.tasks[id]? = some task := by
      rw [answer_insert]
      split
      · exact htask
      · rw [tasks_add, if_neg (Nat.ne_of_lt (h.fresh id task htask)), htask]
    exact hkept
  | cancel other =>
    change (w.cancel other).2.tasks[id]? = _
    rw [tasks_cancel, htask]
    simp [Request.ends, Request.drops, Request.reaches, eq_comm]
  | clear => exact w.tasks_clear id
  | advanceTo target =>
    change (w.advanceTo target.toNat).2.tasks[id]? = _
    rw [h.tasks_advanceTo, htask, Option.filter_some]
    by_cases hdue : task.deadline ≤ target.toNat
    · simp [Request.ends, Request.drops, Request.reaches, hdue, Nat.not_lt.mpr hdue]
    · simp [Request.ends, Request.drops, Request.reaches, hdue, Nat.lt_of_not_le hdue]

/-- A record that is gone does not come back: its id is not given again. -/
theorem Placed.tasks_answer_of_none (h : w.Placed) (hnone : w.tasks[id]? = none)
    (hgiven : id < w.nextId) (r : Request α) :
    (w.answer r).2.tasks[id]? = none ∧ id < (w.answer r).2.nextId := by
  cases r with
  | insert deadline payload =>
    rw [answer_insert]
    split
    · exact ⟨hnone, hgiven⟩
    · refine ⟨?_, Nat.lt_succ_of_lt hgiven⟩
      rw [tasks_add, if_neg (Nat.ne_of_lt hgiven), hnone]
  | cancel other =>
    refine ⟨?_, hgiven⟩
    change (w.cancel other).2.tasks[id]? = none
    rw [tasks_cancel, hnone, ite_self]
  | clear => exact ⟨w.tasks_clear id, hgiven⟩
  | advanceTo target =>
    change (w.advanceTo target.toNat).2.tasks[id]? = none ∧ id < (w.advanceTo target.toNat).2.nextId
    rw [h.tasks_advanceTo, hnone, (h.advanceTo target.toNat).1.nextId]
    exact ⟨rfl, hgiven⟩

theorem Placed.tasks_after_of_none (h : w.Placed) (hnone : w.tasks[id]? = none)
    (hgiven : id < w.nextId) (requests : List (Request α)) :
    (w.after requests).tasks[id]? = none := by
  induction requests generalizing w with
  | nil => exact hnone
  | cons r rest ih =>
    obtain ⟨hnone', hgiven'⟩ := h.tasks_answer_of_none hnone hgiven r
    exact ih (h.answer r) hnone' hgiven'

/-- A task waits until the first request that ends it. -/
theorem Placed.tasks_after (h : w.Placed) (htask : w.tasks[id]? = some task)
    (requests : List (Request α)) :
    (w.after requests).tasks[id]? =
      if requests.any (·.ends id task.deadline) then none else some task := by
  induction requests generalizing w with
  | nil => exact htask
  | cons r rest ih =>
    have hstep := h.tasks_answer htask r
    rw [after_cons, List.any_cons]
    cases hends : r.ends id task.deadline with
    | true =>
      rw [hends, if_pos rfl] at hstep
      have hgiven : id < (w.answer r).2.nextId := by
        have hfresh := h.fresh id task htask
        cases r with
        | insert => cases hends
        | cancel => exact hfresh
        | clear => exact hfresh
        | advanceTo target =>
          change id < (w.advanceTo target.toNat).2.nextId
          rw [(h.advanceTo target.toNat).1.nextId]
          exact hfresh
      rw [(h.answer r).tasks_after_of_none hstep hgiven rest]
      rfl
    | false =>
      rw [hends, if_neg Bool.false_ne_true] at hstep
      rw [ih (h.answer r) hstep, Bool.false_or]

/-! ## What is handed out -/

/-- An id that was handed out was handed out with its task's payload, and once. -/
theorem Hands.filter_of_mem {out : List (TimerId × α)} (h : Hands w w' out)
    (htask : w.tasks[id]? = some task) (hin : id ∈ out.map (·.1)) :
    out.filter (fun given => decide (given.1 = id)) = [(id, task.payload)] := by
  have hpayload {given : TimerId × α} (hgiven : given ∈ out) (heq : given.1 = id) :
      given = (id, task.payload) := by
    obtain ⟨_, payload⟩ := given
    obtain rfl : _ = id := heq
    obtain ⟨task', htask', rfl, _⟩ := h.given _ payload hgiven
    obtain rfl : task = task' := Option.some.inj (htask.symm.trans htask')
    rfl
  have hall : ∀ given ∈ out.filter (fun given => decide (given.1 = id)),
      given = (id, task.payload) := by
    intro given hgiven
    obtain ⟨hmem, heq⟩ := List.mem_filter.mp hgiven
    exact hpayload hmem (of_decide_eq_true heq)
  have honce : (out.filter (fun given => decide (given.1 = id))).length = 1 := by
    rw [← List.countP_eq_length_filter]
    have hcount := List.count_eq_one_of_mem h.nodup hin
    rw [List.count, List.countP_map] at hcount
    exact hcount
  rw [List.eq_replicate_of_mem hall, honce]
  rfl

theorem filter_of_not_mem {out : List (TimerId × α)} (hout : id ∉ out.map (·.1)) :
    out.filter (fun given => decide (given.1 = id)) = [] := by
  refine List.filter_eq_nil_iff.mpr ?_
  intro given hgiven heq
  exact hout (List.mem_map.mpr ⟨given, hgiven, of_decide_eq_true heq⟩)

/-- Only a move hands anything out, and a waiting task is handed out by the move that reaches its
deadline. -/
theorem Placed.filter_answer (h : w.Placed) (htask : w.tasks[id]? = some task) (r : Request α) :
    (w.answer r).1.filter (fun given => decide (given.1 = id)) =
      if r.reaches task.deadline then [(id, task.payload)] else [] := by
  cases r with
  | insert deadline payload =>
    rw [answer_insert]
    rfl
  | cancel other => rfl
  | clear => rfl
  | advanceTo target =>
    have hhands := (h.advanceTo target.toNat).1
    have hleft := hhands.left id
    rw [h.tasks_advanceTo, htask, Option.filter_some] at hleft
    change (w.advanceTo target.toNat).1.filter _ =
      if decide (task.deadline ≤ target.toNat) = true then _ else _
    by_cases hout : id ∈ (w.advanceTo target.toNat).1.map (·.1)
    · rw [if_pos hout] at hleft
      have hdue : task.deadline ≤ target.toNat := by simpa using hleft
      rw [hhands.filter_of_mem htask hout, if_pos (decide_eq_true hdue)]
    · rw [if_neg hout] at hleft
      have hlate : target.toNat < task.deadline := by simpa using hleft
      rw [filter_of_not_mem hout, if_neg (by simpa using hlate)]

theorem Placed.filter_answer_of_none (h : w.Placed) (hnone : w.tasks[id]? = none)
    (r : Request α) : (w.answer r).1.filter (fun given => decide (given.1 = id)) = [] := by
  cases r with
  | insert deadline payload =>
    rw [answer_insert]
    rfl
  | cancel other => rfl
  | clear => rfl
  | advanceTo target =>
    apply filter_of_not_mem
    intro hout
    obtain ⟨⟨_, payload⟩, hin, rfl⟩ := List.mem_map.mp hout
    obtain ⟨task, htask, _⟩ := (h.advanceTo target.toNat).1.given _ payload hin
    cases hnone.symm.trans htask

/-! ## The order in which it is handed out -/

/-- The deadlines of these tasks of a wheel do not fall. -/
def InOrder (w : Wheel α) (out : List (TimerId × α)) : Prop :=
  out.Pairwise fun earlier later => ∀ task task' : Task α, w.tasks[earlier.1]? = some task →
    w.tasks[later.1]? = some task' → task.deadline ≤ task'.deadline

/-- What a tick hands out is due at that tick and was not due before. -/
theorem Hands.deadline_eq {out : List (TimerId × α)} (h : Hands w w' out) (hplaced : w.Placed)
    (hnext : w'.current = w.current + 1) {given : TimerId × α} (hgiven : given ∈ out)
    (htask : w.tasks[given.1]? = some task) : task.deadline = w.current + 1 := by
  obtain ⟨task', htask', _, hdue⟩ := h.given given.1 given.2 hgiven
  obtain rfl : task = task' := Option.some.inj (htask.symm.trans htask')
  have hlt := hplaced.lt htask
  omega

/-- Ticks hand out one tick's tasks after another's. -/
theorem Placed.ticks_inOrder (h : w.Placed) (due : Due α) (n : Nat) :
    ∃ out, (w.ticks due n).2.toList = due.toList ++ out ∧ Hands w (w.ticks due n).1 out ∧
      w.InOrder out := by
  induction n generalizing w due with
  | zero => exact ⟨[], by simp [Wheel.ticks], .refl w, .nil⟩
  | succ n ih =>
    obtain ⟨⟨out, hdue, hhands, hplaced⟩, hcurrent⟩ := h.tick due
    obtain ⟨more, hdue', hhands', horder⟩ := ih hplaced (w.tick due).2
    have hstill {given : TimerId × α} {task : Task α} (hgiven : given ∈ more)
        (htask : w.tasks[given.1]? = some task) : (w.tick due).1.tasks[given.1]? = some task := by
      obtain ⟨task', htask', _⟩ := hhands'.given given.1 given.2 hgiven
      have hleft := hhands.left given.1
      split at hleft
      · cases hleft.symm.trans htask'
      · rw [hleft, htask]
    refine ⟨out ++ more, ?_, hhands.trans hhands', List.pairwise_append.mpr ⟨?_, ?_, ?_⟩⟩
    · rw [← List.append_assoc, ← hdue]
      exact hdue'
    · refine List.pairwise_of_forall_mem_list fun earlier hearlier later hlater task task' ht ht' => ?_
      rw [hhands.deadline_eq h hcurrent hearlier ht, hhands.deadline_eq h hcurrent hlater ht']
    · refine horder.imp_of_mem fun hearlier hlater hle task task' ht ht' => ?_
      exact hle task task' (hstill hearlier ht) (hstill hlater ht')
    · intro earlier hearlier later hlater task task' ht ht'
      have hnow := hhands.deadline_eq h hcurrent hearlier ht
      have hlater' := hplaced.lt (hstill hlater ht')
      omega

theorem Placed.advanceTo_inOrder (h : w.Placed) (target : Nat) :
    w.InOrder (w.advanceTo target).1 := by
  unfold Wheel.advanceTo
  split
  · exact .nil
  · obtain ⟨out, hdue, _, horder⟩ := h.ticks_inOrder #[] (target - w.current)
    have hout : (w.ticks #[] (target - w.current)).2.toList = out := by simpa using hdue
    change w.InOrder (w.ticks #[] (target - w.current)).2.toList
    rw [hout]
    exact horder

/-! ## Whole runs -/

/-- Whatever a new wheel was asked before, a move hands out tasks whose deadline it reaches, in the
order of the deadlines. A task taken before the last tick waits under the deadline asked for, or
under the next tick if that is later, until it is dropped or handed out, and it is handed out by
the first move to reach its deadline and by nothing else. -/
theorem handed_out_when_due (n : Nat) (earlier : List (Request α)) {w : Wheel α}
    (hw : (withSlots n).after earlier = w) :
    (∀ target : UInt64, w.InOrder (w.advanceTo target.toNat).1 ∧
      ∀ given ∈ (w.advanceTo target.toNat).1, ∃ task : Task α, w.tasks[given.1]? = some task ∧
        task.payload = given.2 ∧ task.deadline ≤ target.toNat) ∧
    ∀ (requested : UInt64) (payload : α), w.current < maxWord →
      ∃ w', w.insert requested.toNat payload = .ok (w.nextId, w') ∧
        ∀ (deadline : Nat), deadline = max requested.toNat (w.current + 1) →
        ∀ later : List (Request α),
          (w'.after later).tasks[w.nextId]? =
            (if later.any (·.ends w.nextId deadline) then none else some ⟨deadline, payload⟩) ∧
          ∀ r, ((w'.after later).answer r).1.filter (fun given => decide (given.1 = w.nextId)) =
            if r.reaches deadline && !later.any (·.ends w.nextId deadline) then
              [(w.nextId, payload)]
            else [] := by
  have hplaced : w.Placed := hw ▸ (placed_withSlots n).after earlier
  refine ⟨fun target => ⟨hplaced.advanceTo_inOrder target.toNat, ?_⟩, ?_⟩
  · intro given hgiven
    obtain ⟨hhands, _, hcurrent⟩ := hplaced.advanceTo target.toNat
    obtain ⟨task, htask, hpayload, hdue⟩ := hhands.given given.1 given.2 hgiven
    have hlt := hplaced.lt htask
    exact ⟨task, htask, hpayload, by omega⟩
  · intro requested payload hlast
    refine ⟨(w.add requested.toNat payload).2, insert_of_next hlast _ _, ?_⟩
    rintro deadline rfl later
    have hadded := hplaced.add payload (toNat_le_maxWord requested)
      (by simpa [atLastTick] using hlast)
    have htask : (w.add requested.toNat payload).2.tasks[w.nextId]? =
        some ⟨max requested.toNat (w.current + 1), payload⟩ := by
      rw [tasks_add, if_pos rfl]
    have hwaits := hadded.tasks_after htask later
    refine ⟨hwaits, fun r => ?_⟩
    cases hended : later.any (·.ends w.nextId (max requested.toNat (w.current + 1))) with
    | true =>
      rw [hended] at hwaits
      rw [(hadded.after later).filter_answer_of_none hwaits, Bool.not_true, Bool.and_false]
      rfl
    | false =>
      rw [hended] at hwaits
      rw [(hadded.after later).filter_answer hwaits, Bool.not_false, Bool.and_true]

theorem handed_out_when_due_far :
    ∃ w : Wheel String, (withSlots 1).after [.insert 5 "near", .advanceTo 2] = w ∧
      w.current < maxWord ∧
      ∃ w', w.insert (18446744073709551615 : UInt64).toNat "far" = .ok (w.nextId, w') ∧
        ((w'.after [.advanceTo 7]).answer (.advanceTo 18446744073709551615)).1.filter
          (fun given => decide (given.1 = w.nextId)) = [(w.nextId, "far")] := by
  have hlast : ((withSlots 1 : Wheel String).after [.insert 5 "near", .advanceTo 2]).current = 2 :=
    (((placed_withSlots 1).answer (.insert 5 "near")).advanceTo 2).2.2
  refine ⟨_, rfl, by rw [hlast]; decide, ?_⟩
  obtain ⟨w', htaken, hlater⟩ := (handed_out_when_due 1 _ rfl).2 18446744073709551615 "far"
    (by rw [hlast]; decide)
  refine ⟨w', htaken, ?_⟩
  rw [((hlater _ rfl [.advanceTo 7]).2 (.advanceTo 18446744073709551615))]
  rw [hlast]
  rfl

end Wheel

end TimedCache
