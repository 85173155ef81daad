import TimedCache.Proofs.Wheel.Delivery

/-!
Wheels that nobody can tell apart. The ids of cancelled tasks lie about in the buckets until the
buckets come up or are swept, and levels once added stay. So two wheels can do the same and differ
inside: what counts is the ids in each bucket that still have a task, and their order. As the wheels
move, these stay the same, and so does what is handed out. Hence it makes no difference whether a
wheel moves in one go or in parts, nor whether it skips ahead or ticks.
-/

namespace TimedCache

namespace Wheel

variable {α : Type} {w w' w'' : Wheel α} {due due' : Due α}

/-- The ids of a bucket that have a task. -/
def waitingIn (w : Wheel α) (level i : Nat) : List TimerId :=
  (w.bucket level i).toList.filter fun id => (w.tasks[id]?).isSome

/-- Each level has its buckets, and only ids that were given have a task or a place in a bucket. -/
structure Regular (w : Wheel α) : Prop where
  shaped : w.Shaped
  fresh : ∀ (id : TimerId) (task : Task α), w.tasks[id]? = some task → id < w.nextId
  given : ∀ (level i : Nat) (id : TimerId), id ∈ w.bucket level i → id < w.nextId

/-- The wheels differ at most in how many levels they have, and in ids without a task. -/
structure Matches (w w' : Wheel α) : Prop where
  left : w.Regular
  right : w'.Regular
  slots : w'.slots = w.slots
  current : w'.current = w.current
  nextId : w'.nextId = w.nextId
  tasks : ∀ id : TimerId, w'.tasks[id]? = w.tasks[id]?
  waiting : ∀ level i : Nat, w'.waitingIn level i = w.waitingIn level i

namespace Matches

theorem refl (h : w.Regular) : Matches w w :=
  ⟨h, h, rfl, rfl, rfl, fun _ => rfl, fun _ _ => rfl⟩

theorem symm (h : Matches w w') : Matches w' w :=
  ⟨h.right, h.left, h.slots.symm, h.current.symm, h.nextId.symm, fun id => (h.tasks id).symm,
    fun level i => (h.waiting level i).symm⟩

theorem trans (h : Matches w w') (h' : Matches w' w'') : Matches w w'' :=
  ⟨h.left, h'.right, h'.slots.trans h.slots, h'.current.trans h.current,
    h'.nextId.trans h.nextId, fun id => (h'.tasks id).trans (h.tasks id),
    fun level i => (h'.waiting level i).trans (h.waiting level i)⟩

/-- Wheels without tasks match, whatever is left in their buckets. -/
theorem of_no_tasks (hleft : w.Regular) (hright : w'.Regular) (hslots : w'.slots = w.slots)
    (hcurrent : w'.current = w.current) (hnextId : w'.nextId = w.nextId)
    (hnone : ∀ id : TimerId, w.tasks[id]? = none) (hnone' : ∀ id : TimerId, w'.tasks[id]? = none) :
    Matches w w' := by
  refine ⟨hleft, hright, hslots, hcurrent, hnextId, fun id => ?_, fun level i => ?_⟩
  · rw [hnone, hnone']
  · unfold waitingIn
    simp only [hnone, hnone', Option.isSome_none, List.filter_false]

end Matches

/-! ## Changes of one wheel -/

theorem Regular.atTick (h : w.Regular) (tick : Nat) : ({ w with current := tick } : Wheel α).Regular :=
  ⟨h.shaped, h.fresh, h.given⟩

theorem Regular.forget (h : w.Regular) (id : TimerId) : (w.cancel id).2.Regular :=
  ⟨h.shaped, fun other task htask => h.fresh other task (of_tasks_cancel htask).2, h.given⟩

theorem Regular.emptyBucket (h : w.Regular) (level i : Nat) : (w.emptyBucket level i).Regular := by
  refine ⟨h.shaped.modify _ _ _, h.fresh, fun upper j id hin => ?_⟩
  rw [bucket_emptyBucket] at hin
  split at hin
  · exact absurd hin (Array.not_mem_empty id)
  · exact h.given upper j id hin

theorem bucket_clearBuckets (w : Wheel α) (level i : Nat) :
    w.clearBuckets.bucket level i = #[] := by
  unfold bucket clearBuckets
  dsimp only
  rw [Array.getElem?_map]
  cases w.levels[level]? with
  | none => rfl
  | some buckets =>
    rw [Option.map_some, Option.bind_some, Array.getElem?_map]
    cases buckets[i]? <;> rfl

theorem Regular.clearBuckets (h : w.Regular) : w.clearBuckets.Regular := by
  refine ⟨h.shaped.clearBuckets, h.fresh, fun level i id hin => ?_⟩
  rw [bucket_clearBuckets] at hin
  exact absurd hin (Array.not_mem_empty id)

/-- Where each level has its buckets, an id that is placed is put last into its bucket. -/
theorem bucket_place (h : w.Shaped) (id : TimerId) (deadline level i : Nat) :
    (w.place id deadline).bucket level i =
      if levelFor w.slots (max (deadline - w.current) 1) = level ∧
          bucketFor w.slots (levelFor w.slots (max (deadline - w.current) 1)) deadline = i then
        (w.bucket level i).push id
      else w.bucket level i := by
  rw [place_eq, bucket_modify, bucket_growTo]
  generalize levelFor w.slots (max (deadline - w.current) 1) = chosen
  split
  · rename_i hplace
    obtain ⟨rfl, rfl⟩ := hplace
    have hsize := w.size_levels_growTo (chosen + 1)
    have hlevel : (w.growTo (chosen + 1)).levels[chosen]? =
        some (w.growTo (chosen + 1)).levels[chosen] := Array.getElem?_eq_getElem (by omega)
    have hlt : bucketFor w.slots chosen deadline < (w.growTo (chosen + 1)).levels[chosen].size := by
      rw [h.growTo (chosen + 1) chosen _ hlevel]
      exact w.bucketFor_lt chosen deadline
    have hfound := w.bucket_growTo (chosen + 1) chosen (bucketFor w.slots chosen deadline)
    unfold bucket at hfound
    rw [hlevel, Option.bind_some, Array.getElem?_eq_getElem hlt] at hfound ⊢
    rw [Option.map_some, Option.getD_some]
    rw [Option.getD_some] at hfound
    rw [hfound]
    rfl
  · rfl

theorem Regular.place (h : w.Regular) {id : TimerId} (hid : id < w.nextId) (deadline : Nat) :
    (w.place id deadline).Regular := by
  refine ⟨h.shaped.place id deadline, h.fresh, fun level i other hin => ?_⟩
  rw [bucket_place h.shaped] at hin
  split at hin
  · rcases Array.mem_push.mp hin with hold | rfl
    · exact h.given level i other hold
    · exact hid
  · exact h.given level i other hin

theorem Regular.entered (h : w.Regular) (task : Task α) : (w.entered task).Regular := by
  refine ⟨h.shaped, fun id other hother => ?_, fun level i id hin => ?_⟩
  · rcases of_tasks_entered hother with ⟨rfl, _⟩ | hold
    · exact Nat.lt_succ_self _
    · exact Nat.lt_succ_of_lt (h.fresh id other hold)
  · exact Nat.lt_succ_of_lt (h.given level i id hin)

/-- No bucket holds an id before it is given. -/
theorem Regular.waitingIn_entered (h : w.Regular) (task : Task α) (level i : Nat) :
    (w.entered task).waitingIn level i = w.waitingIn level i := by
  refine List.filter_congr fun id hin => ?_
  have hlt := h.given level i id (Array.mem_toList_iff.mp hin)
  rw [tasks_entered, if_neg (Nat.ne_of_lt hlt)]

/-! ## Changes of both wheels -/

namespace Matches

theorem atTick (h : Matches w w') (tick : Nat) :
    Matches { w with current := tick } { w' with current := tick } :=
  ⟨h.left.atTick tick, h.right.atTick tick, h.slots, rfl, h.nextId, h.tasks, h.waiting⟩

theorem forget (h : Matches w w') (id : TimerId) :
    Matches { w with tasks := w.tasks.erase id } { w' with tasks := w'.tasks.erase id } := by
  have hwaiting (v : Wheel α) (level i : Nat) :
      ({ v with tasks := v.tasks.erase id } : Wheel α).waitingIn level i =
        (v.waitingIn level i).filter fun other => decide (other ≠ id) := by
    unfold waitingIn
    rw [List.filter_filter]
    refine List.filter_congr fun other _ => ?_
    have herase : (v.tasks.erase id)[other]? = if other = id then none else v.tasks[other]? :=
      tasks_cancel v id other
    rw [herase]
    by_cases heq : other = id <;> simp [heq]
  refine ⟨h.left.forget id, h.right.forget id, h.slots, h.current, h.nextId, fun other => ?_,
    fun level i => ?_⟩
  · have htasks (v : Wheel α) := tasks_cancel v id other
    change (w'.cancel id).2.tasks[other]? = (w.cancel id).2.tasks[other]?
    rw [htasks, htasks, h.tasks]
  · rw [hwaiting, hwaiting, h.waiting]

theorem emptyBucket (h : Matches w w') (level i : Nat) :
    Matches (w.emptyBucket level i) (w'.emptyBucket level i) := by
  refine ⟨h.left.emptyBucket level i, h.right.emptyBucket level i, h.slots, h.current, h.nextId,
    h.tasks, fun upper j => ?_⟩
  have hwaiting (v : Wheel α) : (v.emptyBucket level i).waitingIn upper j =
      if level = upper ∧ i = j then [] else v.waitingIn upper j := by
    unfold waitingIn
    rw [bucket_emptyBucket]
    split <;> rfl
  rw [hwaiting, hwaiting, h.waiting]

theorem place (h : Matches w w') {id : TimerId} {task : Task α} (htask : w.tasks[id]? = some task)
    (deadline : Nat) : Matches (w.place id deadline) (w'.place id deadline) := by
  have hid := h.left.fresh id task htask
  have hid' : id < w'.nextId := h.nextId ▸ hid
  refine ⟨h.left.place hid deadline, h.right.place hid' deadline, h.slots, h.current, h.nextId,
    h.tasks, fun level i => ?_⟩
  have hwaiting {v : Wheel α} (hv : v.Shaped) (hlive : (v.tasks[id]?).isSome = true) :
      (v.place id deadline).waitingIn level i =
        if levelFor v.slots (max (deadline - v.current) 1) = level ∧
            bucketFor v.slots (levelFor v.slots (max (deadline - v.current) 1)) deadline = i then
          v.waitingIn level i ++ [id]
        else v.waitingIn level i := by
    unfold waitingIn
    rw [bucket_place hv]
    split
    · rw [Array.toList_push, List.filter_append]
      congr 1
      exact List.filter_cons_of_pos hlive
    · rfl
  rw [hwaiting h.left.shaped (by rw [htask]; rfl),
    hwaiting h.right.shaped (by rw [h.tasks, htask]; rfl), h.slots, h.current, h.waiting]

theorem entered (h : Matches w w') (task : Task α) : Matches (w.entered task) (w'.entered task) := by
  refine ⟨h.left.entered task, h.right.entered task, h.slots, h.current, congrArg (· + 1) h.nextId,
    fun id => ?_, fun level i => ?_⟩
  · rw [tasks_entered, tasks_entered, h.nextId, h.tasks]
  · rw [h.left.waitingIn_entered, h.right.waitingIn_entered, h.waiting]

/-- A new task gets the same id on both wheels and the same place. -/
theorem add (h : Matches w w') (deadline : Nat) (payload : α) :
    Matches (w.add deadline payload).2 (w'.add deadline payload).2 := by
  have htask := w.tasks_entered ⟨max deadline (w.current + 1), payload⟩ w.nextId
  rw [if_pos rfl] at htask
  rw [add_eq, add_eq, h.current, h.nextId]
  exact (h.entered _).place htask _

/-- Sweeping the buckets of wheels without tasks. -/
theorem sweep (h : Matches w w') (hnone : ∀ id : TimerId, w.tasks[id]? = none) (tick : Nat) :
    Matches { w.clearBuckets with current := tick } { w'.clearBuckets with current := tick } :=
  of_no_tasks (h.left.clearBuckets.atTick tick) (h.right.clearBuckets.atTick tick) h.slots rfl h.nextId
    hnone fun id => (h.tasks id).trans (hnone id)

theorem clear (h : Matches w w') : Matches w.clear w'.clear := by
  have hregular {v : Wheel α} (hv : v.Regular) : v.clear.Regular := by
    refine ⟨hv.shaped.clearBuckets, fun id task htask => ?_, hv.clearBuckets.given⟩
    rw [tasks_clear] at htask
    cases htask
  exact of_no_tasks (hregular h.left) (hregular h.right) h.slots h.current h.nextId w.tasks_clear
    w'.tasks_clear

end Matches

/-! ## Service -/

/-- Two outcomes of a service that hands out the same on both wheels. -/
def Agrees (due due' : Due α) (r r' : Wheel α × Due α) : Prop :=
  ∃ out, r.2.toList = due.toList ++ out ∧ r'.2.toList = due'.toList ++ out ∧ Matches r.1 r'.1

theorem Matches.agrees (h : Matches w w') (due due' : Due α) :
    Agrees due due' (w, due) (w', due') :=
  ⟨[], (List.append_nil _).symm, (List.append_nil _).symm, h⟩

theorem Agrees.matches {r r' : Wheel α × Due α} (h : Agrees due due' r r') : Matches r.1 r'.1 := by
  obtain ⟨_, _, _, hmatches⟩ := h
  exact hmatches

theorem Agrees.trans {r r' s s' : Wheel α × Due α} (hfirst : Agrees due due' r r')
    (hsecond : Agrees r.2 r'.2 s s') : Agrees due due' s s' := by
  obtain ⟨out, hout, hout', _⟩ := hfirst
  obtain ⟨more, hmore, hmore', hmatches⟩ := hsecond
  refine ⟨out ++ more, ?_, ?_, hmatches⟩
  · rw [hmore, hout, List.append_assoc]
  · rw [hmore', hout', List.append_assoc]

theorem settle_of_none {id : TimerId} (h : w.tasks[id]? = none) (due : Due α) :
    w.settle due id = (w, due) := by
  unfold settle
  rw [h]

theorem settle_of_some {id : TimerId} {task : Task α} (h : w.tasks[id]? = some task)
    (due : Due α) :
    w.settle due id = if task.deadline ≤ w.current then
        ({ w with tasks := w.tasks.erase id }, due.push (id, task.payload))
      else (w.place id task.deadline, due) := by
  unfold settle
  rw [h]

theorem Matches.settle (h : Matches w w') (due due' : Due α) (id : TimerId) :
    Agrees due due' (w.settle due id) (w'.settle due' id) := by
  cases htask : w.tasks[id]? with
  | none =>
    rw [settle_of_none htask, settle_of_none ((h.tasks id).trans htask)]
    exact h.agrees due due'
  | some task =>
    have hcurrent : task.deadline ≤ w'.current ↔ task.deadline ≤ w.current := by rw [h.current]
    rw [settle_of_some htask, settle_of_some ((h.tasks id).trans htask)]
    by_cases hdue : task.deadline ≤ w.current
    · rw [if_pos hdue, if_pos (hcurrent.mpr hdue)]
      exact ⟨[(id, task.payload)], Array.toList_push, Array.toList_push, h.forget id⟩
    · rw [if_neg hdue, if_neg fun hle => hdue (hcurrent.mp hle)]
      exact (h.place htask task.deadline).agrees due due'

theorem Matches.settleAll (h : Matches w w') (due due' : Due α) (ids : List TimerId) :
    Agrees due due' (ids.foldl (fun (w, due) id => w.settle due id) (w, due))
      (ids.foldl (fun (w, due) id => w.settle due id) (w', due')) := by
  induction ids generalizing w w' due due' with
  | nil => exact h.agrees due due'
  | cons id rest ih =>
    have hfirst := h.settle due due' id
    exact hfirst.trans (ih hfirst.matches _ _)

/-- Settling an id gives no task to any. -/
theorem isSome_of_settle {id other : TimerId}
    (h : ((w.settle due id).1.tasks[other]?).isSome = true) : (w.tasks[other]?).isSome = true := by
  cases htask : w.tasks[id]? with
  | none =>
    rw [settle_of_none htask] at h
    exact h
  | some task =>
    rw [settle_of_some htask] at h
    split at h
    · replace h : ((w.cancel id).2.tasks[other]?).isSome = true := h
      rw [tasks_cancel] at h
      split at h
      · cases h
      · exact h
    · exact h

/-- Ids without a task can be left out before a bucket's ids are settled. -/
theorem settleAll_filter (w : Wheel α) (due : Due α) {keep : TimerId → Bool}
    (hkeep : ∀ id : TimerId, (w.tasks[id]?).isSome = true → keep id = true) (ids : List TimerId) :
    (ids.filter keep).foldl (fun (w, due) id => w.settle due id) (w, due) =
      ids.foldl (fun (w, due) id => w.settle due id) (w, due) := by
  induction ids generalizing w due with
  | nil => rfl
  | cons id rest ih =>
    cases hid : keep id with
    | true =>
      rw [List.filter_cons_of_pos hid, List.foldl_cons, List.foldl_cons]
      exact ih _ _ fun other hother => hkeep other (isSome_of_settle hother)
    | false =>
      have hnone : w.tasks[id]? = none := by
        by_contra hsome
        have hlive := hkeep id (Option.isSome_iff_ne_none.mpr hsome)
        rw [hid] at hlive
        cases hlive
      rw [List.filter_cons_of_neg (by rw [hid]; exact Bool.false_ne_true), List.foldl_cons]
      dsimp only
      rw [settle_of_none hnone]
      exact ih w due hkeep

theorem Matches.serve (h : Matches w w') (due due' : Due α) (level : Nat) :
    Agrees due due' (w.serve due level) (w'.serve due' level) := by
  unfold Wheel.serve
  rw [h.current, h.slots]
  split
  · dsimp only
    generalize bucketFor w.slots level w.current = i
    have hlive (v : Wheel α) (given : Due α) :
        (v.bucket level i).foldl (fun (w, due) id => w.settle due id)
            (v.emptyBucket level i, given) =
          (v.waitingIn level i).foldl (fun (w, due) id => w.settle due id)
            (v.emptyBucket level i, given) := by
      rw [← Array.foldl_toList]
      exact (settleAll_filter (v.emptyBucket level i) given (fun _ hid => hid) _).symm
    rw [hlive, hlive, h.waiting]
    exact (h.emptyBucket level i).settleAll due due' _
  · exact h.agrees due due'

theorem Matches.serveBelow (h : Matches w w') (due due' : Due α) (n : Nat) :
    Agrees due due' (w.serveBelow due n) (w'.serveBelow due' n) := by
  induction n generalizing w w' due due' with
  | zero => exact h.agrees due due'
  | succ level ih =>
    have hfirst := h.serve due due' level
    exact hfirst.trans (ih hfirst.matches _ _)

/-- A level that was not added has nothing to serve. -/
theorem serve_of_size_le {level : Nat} (h : w.levels.size ≤ level) (due : Due α) :
    w.serve due level = (w, due) := by
  have hbucket (i : Nat) : w.bucket level i = #[] := by
    unfold bucket
    rw [Array.getElem?_eq_none h]
    rfl
  have hempty (i : Nat) : w.emptyBucket level i = w := by
    have hlevels (f : Array (Array TimerId) → Array (Array TimerId)) :
        w.levels.modify level f = w.levels := by
      refine Array.ext_getElem? fun upper => ?_
      rw [Array.getElem?_modify]
      split
      · rename_i heq
        rw [Array.getElem?_eq_none (heq ▸ h)]
        rfl
      · rfl
    unfold emptyBucket
    rw [hlevels]
  unfold serve
  split
  · dsimp only
    rw [hbucket, hempty]
    rfl
  · rfl

theorem tick_eq_serveBelow_of_le {n : Nat} (h : w.levels.size ≤ n) (due : Due α) :
    w.tick due = { w with current := w.current + 1 }.serveBelow due n := by
  rw [tick_eq_serveBelow]
  induction n, h using Nat.le_induction with
  | base => rfl
  | succ n hle ih =>
    have hidle := serve_of_size_le (w := { w with current := w.current + 1 }) hle due
    rw [ih, serveBelow, hidle]

theorem Matches.tick (h : Matches w w') (due due' : Due α) :
    Agrees due due' (w.tick due) (w'.tick due') := by
  rw [tick_eq_serveBelow_of_le (Nat.le_max_left w.levels.size w'.levels.size),
    tick_eq_serveBelow_of_le (Nat.le_max_right w.levels.size w'.levels.size), h.current]
  exact (h.atTick (w.current + 1)).serveBelow due due' _

theorem Matches.ticks (h : Matches w w') (due due' : Due α) (n : Nat) :
    Agrees due due' (w.ticks due n) (w'.ticks due' n) := by
  induction n generalizing w w' due due' with
  | zero => exact h.agrees due due'
  | succ n ih =>
    have hfirst := h.tick due due'
    exact hfirst.trans (ih hfirst.matches _ _)

/-! ## Requests -/

theorem isEmpty_tasks_iff (w : Wheel α) :
    w.tasks.isEmpty = true ↔ ∀ id : TimerId, w.tasks[id]? = none := by
  constructor
  · exact fun hempty _ => Std.HashMap.getElem?_of_isEmpty hempty
  · intro hnone
    rw [Std.HashMap.isEmpty_iff_forall_not_mem]
    intro id hin
    rw [Std.HashMap.mem_iff_isSome_getElem?, hnone id] at hin
    cases hin

theorem Matches.advanceTo (h : Matches w w') (target : Nat) :
    (w'.advanceTo target).1 = (w.advanceTo target).1 ∧
      Matches (w.advanceTo target).2 (w'.advanceTo target).2 := by
  have hempty : w'.tasks.isEmpty = true ↔ w.tasks.isEmpty = true := by
    rw [isEmpty_tasks_iff, isEmpty_tasks_iff]
    exact forall_congr' fun id => by rw [h.tasks]
  unfold Wheel.advanceTo
  rw [h.current]
  by_cases hidle : w.tasks.isEmpty = true
  · rw [if_pos hidle, if_pos (hempty.mpr hidle)]
    exact ⟨rfl, h.sweep (w.isEmpty_tasks_iff.mp hidle) _⟩
  · rw [if_neg hidle, if_neg fun hidle' => hidle (hempty.mp hidle')]
    obtain ⟨out, hout, hout', hmatches⟩ := h.ticks #[] #[] (target - w.current)
    exact ⟨hout'.trans hout.symm, hmatches⟩

/-- Wheels that match give the same answer to a request, and match after it. -/
theorem Matches.answer (h : Matches w w') (r : Request α) :
    (w'.answer r).1 = (w.answer r).1 ∧ Matches (w.answer r).2 (w'.answer r).2 := by
  cases r with
  | insert deadline payload =>
    have hlast : w'.atLastTick = w.atLastTick := by
      unfold atLastTick
      rw [h.current]
    rw [answer_insert, answer_insert, hlast]
    refine ⟨rfl, ?_⟩
    dsimp only
    split
    · exact h
    · exact h.add deadline.toNat payload
  | cancel id => exact ⟨rfl, h.forget id⟩
  | clear => exact ⟨rfl, h.clear⟩
  | advanceTo target => exact h.advanceTo target.toNat

theorem Matches.after (h : Matches w w') (requests : List (Request α)) :
    Matches (w.after requests) (w'.after requests) := by
  induction requests generalizing w w' with
  | nil => exact h
  | cons r rest ih => exact ih (h.answer r).2

theorem bucket_withSlots (n level i : Nat) : (withSlots n : Wheel α).bucket level i = #[] := by
  unfold bucket withSlots
  cases level with
  | zero =>
    simp only [List.getElem?_toArray, List.getElem?_cons_zero, Option.bind_some,
      Array.getElem?_replicate]
    split <;> rfl
  | succ level => rfl

theorem regular_withSlots (n : Nat) : (withSlots n : Wheel α).Regular := by
  have hplaced : (withSlots n : Wheel α).Placed := placed_withSlots n
  refine ⟨hplaced.shaped, hplaced.fresh, fun level i id hin => ?_⟩
  rw [bucket_withSlots] at hin
  exact absurd hin (Array.not_mem_empty id)

theorem regular_after (n : Nat) (requests : List (Request α)) :
    ((withSlots n).after requests).Regular :=
  ((Matches.refl (regular_withSlots n)).after requests).left

/-- Whatever is asked of the two wheels from now on, they stand at the same tick, have the same
tasks, give the same ids and hand out the same tasks in the same order. -/
def Alike (w w' : Wheel α) : Prop :=
  ∀ later : List (Request α),
    (w.after later).current = (w'.after later).current ∧
    (w.after later).nextId = (w'.after later).nextId ∧
    (∀ id : TimerId, (w.after later).tasks[id]? = (w'.after later).tasks[id]?) ∧
    ∀ r, ((w.after later).answer r).1 = ((w'.after later).answer r).1

theorem Matches.alike (h : Matches w w') : Alike w w' := by
  intro later
  have hafter := h.after later
  exact ⟨hafter.current.symm, hafter.nextId.symm, fun id => (hafter.tasks id).symm,
    fun r => (hafter.answer r).1.symm⟩

/-! ## One move, several moves, ticks -/

/-- A wheel without tasks hands out nothing as it ticks, so it might as well skip ahead. -/
theorem Placed.advanceTo_ticks (hplaced : w.Placed) (h : w.Regular) (target : Nat) :
    (w.advanceTo target).1 = (w.ticks #[] (target - w.current)).2.toList ∧
      Matches (w.advanceTo target).2 (w.ticks #[] (target - w.current)).1 := by
  obtain ⟨_, _, _, hticked⟩ := (Matches.refl h).ticks #[] #[] (target - w.current)
  unfold Wheel.advanceTo
  split
  · rename_i hidle
    have hnone := w.isEmpty_tasks_iff.mp hidle
    obtain ⟨⟨out, hout, hhands, _⟩, hcurrent⟩ := hplaced.ticks #[] (target - w.current)
    have hnothing : out = [] := by
      refine List.eq_nil_iff_forall_not_mem.mpr fun given hgiven => ?_
      obtain ⟨task, htask, _⟩ := hhands.given given.1 given.2 hgiven
      cases (hnone given.1).symm.trans htask
    refine ⟨?_, .of_no_tasks (h.clearBuckets.atTick _) hticked.left hhands.slots ?_ hhands.nextId
      hnone fun id => ?_⟩
    · rw [hout, hnothing]
      rfl
    · rw [hcurrent]
      exact (by omega : w.current + (target - w.current) = max w.current target)
    · rw [hhands.left, hnothing]
      exact hnone id
  · exact ⟨rfl, hticked⟩

theorem ticks_add (w : Wheel α) (due : Due α) (m n : Nat) :
    w.ticks due (m + n) = (w.ticks due m).1.ticks (w.ticks due m).2 n := by
  induction m generalizing w due with
  | zero => rw [Nat.zero_add]; rfl
  | succ m ih =>
    rw [Nat.succ_add]
    exact ih _ _

/-- Moving a wheel to two ticks one after the other is moving it to the later one. -/
theorem Placed.advanceTo_advanceTo (hplaced : w.Placed) (h : w.Regular) (first second : Nat) :
    (w.advanceTo first).1 ++ ((w.advanceTo first).2.advanceTo second).1 =
        (w.advanceTo (max first second)).1 ∧
      Matches ((w.advanceTo first).2.advanceTo second).2 (w.advanceTo (max first second)).2 := by
  obtain ⟨_, hbetween, hcurrent⟩ := hplaced.advanceTo first
  obtain ⟨hout, hmatches⟩ := hplaced.advanceTo_ticks h first
  obtain ⟨hmore, hmatches'⟩ := hbetween.advanceTo_ticks hmatches.left second
  obtain ⟨hwhole, hmatches''⟩ := hplaced.advanceTo_ticks h (max first second)
  have hlength : max first second - w.current =
      (first - w.current) + (second - max w.current first) := by omega
  rw [hcurrent] at hmore hmatches'
  rw [hlength, ticks_add] at hwhole hmatches''
  obtain ⟨out, hticks, hticks', hagree⟩ := hmatches.ticks #[]
    (w.ticks #[] (first - w.current)).2 (second - max w.current first)
  refine ⟨?_, (hmatches'.trans hagree).trans hmatches''.symm⟩
  rw [hout, hmore, hwhole, hticks, hticks']
  rfl

/-- Whatever a new wheel was asked before, moving it in two parts is indistinguishable from moving it
in one go, and so is skipping ahead from ticking one by one. -/
theorem moves_in_parts (n : Nat) (earlier : List (Request α)) :
    let w : Wheel α := (withSlots n).after earlier
    (∀ first second : UInt64,
      let parted := (w.advanceTo first.toNat).2.advanceTo second.toNat
      let whole := w.advanceTo (max first.toNat second.toNat)
      (w.advanceTo first.toNat).1 ++ parted.1 = whole.1 ∧ Alike parted.2 whole.2) ∧
    ∀ target : UInt64,
      let ticked := w.ticks #[] (target.toNat - w.current)
      (w.advanceTo target.toNat).1 = ticked.2.toList ∧ Alike (w.advanceTo target.toNat).2 ticked.1 := by
  intro w
  have hplaced : w.Placed := (placed_withSlots n).after earlier
  have hregular : w.Regular := regular_after n earlier
  refine ⟨fun first second => ?_, fun target => ?_⟩
  · obtain ⟨hout, hmatches⟩ := hplaced.advanceTo_advanceTo hregular first.toNat second.toNat
    exact ⟨hout, hmatches.alike⟩
  · obtain ⟨hout, hmatches⟩ := hplaced.advanceTo_ticks hregular target.toNat
    exact ⟨hout, hmatches.alike⟩

end Wheel

end TimedCache
