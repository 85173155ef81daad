import TimedCache.Proofs.Wheel.Placement

/-!
What a wheel hands out. At each tick the levels are served from the highest down, and a task whose
bucket has come up is due or moves on to a bucket that is yet to come up. So nothing is handed out
early, nothing is left behind, and nothing is handed out twice.
-/

namespace TimedCache

namespace Wheel

variable {α : Type} {w w' w'' : Wheel α}

/-- A wheel while it is served. A task that was not looked at yet waits below a level, in the bucket
that comes up at the current tick, or among the ids taken from the bucket in hand. -/
structure Held (w : Wheel α) (below : Nat) (inHand : List TimerId) : Prop where
  shaped : w.Shaped
  word : ∀ (id : TimerId) (task : Task α), w.tasks[id]? = some task → task.deadline ≤ maxWord
  fresh : ∀ (id : TimerId) (task : Task α), w.tasks[id]? = some task → id < w.nextId
  located : ∀ (id : TimerId) (task : Task α), w.tasks[id]? = some task →
    (id ∈ inHand ∧ w.current ≤ task.deadline) ∨
      ∃ level, id ∈ w.bucket level (bucketFor w.slots level task.deadline) ∧
        (Within w.slots w.current level task.deadline ∨
          (level < below ∧ w.current % span w.slots level = 0 ∧
            task.deadline / span w.slots level = w.current / span w.slots level))

/-- Every task is in a bucket that is yet to come up. -/
def Placed (w : Wheel α) : Prop := w.Held 0 []

theorem Placed.lt (h : w.Placed) {id : TimerId} {task : Task α}
    (htask : w.tasks[id]? = some task) : w.current < task.deadline := by
  rcases h.located id task htask with ⟨hin, _⟩ | ⟨level, _, hwithin | ⟨hlt, _⟩⟩
  · cases hin
  · exact hwithin.lt
  · exact absurd hlt (Nat.not_lt_zero _)

/-- The wheel in which a task has the next id, and no place yet. -/
def entered (w : Wheel α) (task : Task α) : Wheel α :=
  { w with nextId := w.nextId + 1, tasks := w.tasks.insert w.nextId task }

theorem add_eq (w : Wheel α) (deadline : Nat) (payload : α) :
    w.add deadline payload = (w.nextId,
      (w.entered ⟨max deadline (w.current + 1), payload⟩).place w.nextId
        (max deadline (w.current + 1))) := rfl

theorem tasks_entered (w : Wheel α) (task : Task α) (id : TimerId) :
    (w.entered task).tasks[id]? = if id = w.nextId then some task else w.tasks[id]? := by
  change (w.tasks.insert w.nextId task)[id]? = _
  rw [Std.HashMap.getElem?_insert]
  by_cases heq : w.nextId = id
  · simp [heq]
  · simp [heq, Ne.symm heq]

/-- A task that is found after another has entered is that one, or was there before. -/
theorem of_tasks_entered {task found : Task α} {id : TimerId}
    (h : (w.entered task).tasks[id]? = some found) :
    (id = w.nextId ∧ found = task) ∨ w.tasks[id]? = some found := by
  rw [tasks_entered] at h
  split at h
  · rename_i heq
    exact Or.inl ⟨heq, (Option.some.inj h).symm⟩
  · exact Or.inr h

theorem tasks_add (w : Wheel α) (deadline : Nat) (payload : α) (id : TimerId) :
    (w.add deadline payload).2.tasks[id]? =
      if id = w.nextId then some { deadline := max deadline (w.current + 1), payload }
      else w.tasks[id]? :=
  w.tasks_entered ⟨max deadline (w.current + 1), payload⟩ id

theorem tasks_cancel (w : Wheel α) (id other : TimerId) :
    (w.cancel id).2.tasks[other]? = if other = id then none else w.tasks[other]? := by
  change (w.tasks.erase id)[other]? = _
  rw [Std.HashMap.getElem?_erase]
  by_cases heq : id = other
  · simp [heq]
  · simp [heq, Ne.symm heq]

theorem of_tasks_cancel {id other : TimerId} {task : Task α}
    (h : (w.cancel id).2.tasks[other]? = some task) : other ≠ id ∧ w.tasks[other]? = some task := by
  rw [tasks_cancel] at h
  split at h
  · cases h
  · rename_i hother
    exact ⟨hother, h⟩

theorem tasks_clear (w : Wheel α) (id : TimerId) : w.clear.tasks[id]? = none := by
  simp [Wheel.clear]

theorem Placed.of_no_tasks (hshaped : w.Shaped) (hnone : ∀ id : TimerId, w.tasks[id]? = none) :
    w.Placed := by
  refine ⟨hshaped, ?_, ?_, ?_⟩
  all_goals
    intro id task htask
    rw [hnone] at htask
    cases htask

theorem placed_withSlots (n : Nat) : (withSlots n : Wheel α).Placed := by
  apply Placed.of_no_tasks
  · intro level buckets hbuckets
    have hone : level = 0 := by
      have hlt := (Array.getElem?_eq_some_iff.mp hbuckets).1
      simp [withSlots] at hlt
      exact hlt
    subst hone
    cases hbuckets
    exact Array.size_replicate
  · exact fun id => by simp [withSlots]

theorem Shaped.clearBuckets (h : w.Shaped) : w.clearBuckets.Shaped := by
  intro level buckets hbuckets
  change (w.levels.map _)[level]? = some buckets at hbuckets
  rw [Array.getElem?_map, Option.map_eq_some_iff] at hbuckets
  obtain ⟨old, hold, rfl⟩ := hbuckets
  rw [Array.size_map]
  exact h level old hold

theorem Placed.clear (h : w.Placed) : w.clear.Placed :=
  .of_no_tasks h.shaped.clearBuckets w.tasks_clear

theorem Placed.cancel (h : w.Placed) (id : TimerId) : (w.cancel id).2.Placed :=
  ⟨h.shaped, fun other task htask => h.word other task (of_tasks_cancel htask).2,
    fun other task htask => h.fresh other task (of_tasks_cancel htask).2,
    fun other task htask => h.located other task (of_tasks_cancel htask).2⟩

theorem Placed.add (h : w.Placed) {deadline : Nat} (payload : α) (hword : deadline ≤ maxWord)
    (hlast : w.atLastTick = false) : (w.add deadline payload).2.Placed := by
  have hnext : w.current < maxWord := by simpa [atLastTick] using hlast
  have hle : max deadline (w.current + 1) ≤ maxWord := by omega
  have hlt : w.current < max deadline (w.current + 1) := by omega
  rw [add_eq]
  have hentered : (w.entered ⟨max deadline (w.current + 1), payload⟩).Shaped := h.shaped
  refine ⟨hentered.place _ _, ?_, ?_, ?_⟩
  · intro id task htask
    rcases of_tasks_entered htask with ⟨_, rfl⟩ | hold
    · exact hle
    · exact h.word id task hold
  · intro id task htask
    change id < w.nextId + 1
    rcases of_tasks_entered htask with ⟨rfl, _⟩ | hold
    · exact Nat.lt_succ_self _
    · exact Nat.lt_succ_of_lt (h.fresh id task hold)
  · intro id task htask
    right
    rcases of_tasks_entered htask with ⟨rfl, rfl⟩ | hold
    · exact ⟨_, mem_bucket_place hentered w.nextId _,
        Or.inl (within_levelFor w.two_le_slots hlt hle)⟩
    · rcases h.located id task hold with ⟨hin, _⟩ | ⟨level, hin, hwhere⟩
      · cases hin
      · have hkept : id ∈ (w.entered ⟨max deadline (w.current + 1), payload⟩).bucket level
          (bucketFor w.slots level task.deadline) := hin
        exact ⟨level, mem_bucket_place_of_mem hkept w.nextId _, hwhere⟩

/-- The second wheel is the first without some tasks, which were handed out. -/
structure Hands (w w' : Wheel α) (out : List (TimerId × α)) : Prop where
  slots : w'.slots = w.slots
  nextId : w'.nextId = w.nextId
  mono : w.current ≤ w'.current
  nodup : (out.map (·.1)).Nodup
  given : ∀ id payload, (id, payload) ∈ out → ∃ task : Task α, w.tasks[id]? = some task ∧
    task.payload = payload ∧ task.deadline ≤ w'.current
  left : ∀ id : TimerId, w'.tasks[id]? = if id ∈ out.map (·.1) then none else w.tasks[id]?

namespace Hands

theorem refl (w : Wheel α) : Hands w w [] :=
  ⟨rfl, rfl, Nat.le_refl _, List.nodup_nil, nofun, fun _ => by simp⟩

theorem trans {out more : List (TimerId × α)} (hfirst : Hands w w' out)
    (hsecond : Hands w' w'' more) : Hands w w'' (out ++ more) where
  slots := hsecond.slots.trans hfirst.slots
  nextId := hsecond.nextId.trans hfirst.nextId
  mono := hfirst.mono.trans hsecond.mono
  nodup := by
    rw [List.map_append]
    refine List.nodup_append.mpr ⟨hfirst.nodup, hsecond.nodup, ?_⟩
    rintro id hin _ hmore rfl
    obtain ⟨⟨_, payload⟩, hmem, rfl⟩ := List.mem_map.mp hmore
    obtain ⟨task, htask, _⟩ := hsecond.given _ payload hmem
    rw [hfirst.left, if_pos hin] at htask
    cases htask
  given id payload hin := by
    rcases List.mem_append.mp hin with hout | hmore
    · obtain ⟨task, htask, hpayload, hle⟩ := hfirst.given id payload hout
      exact ⟨task, htask, hpayload, hle.trans hsecond.mono⟩
    · obtain ⟨task, htask, hpayload, hle⟩ := hsecond.given id payload hmore
      rw [hfirst.left] at htask
      split at htask
      · cases htask
      · exact ⟨task, htask, hpayload, hle⟩
  left id := by
    rw [hsecond.left, hfirst.left, List.map_append]
    by_cases hmore : id ∈ more.map (·.1)
    · rw [if_pos hmore, if_pos (List.mem_append_right _ hmore)]
    · rw [if_neg hmore]
      by_cases hout : id ∈ out.map (·.1)
      · rw [if_pos hout, if_pos (List.mem_append_left _ hout)]
      · rw [if_neg hout, if_neg]
        exact fun hin => (List.mem_append.mp hin).elim hout hmore

end Hands

/-- A step of the service hands out some tasks and leaves the others held. -/
def Serves (w : Wheel α) (due : Due α) (below : Nat) (inHand : List TimerId)
    (r : Wheel α × Due α) : Prop :=
  ∃ out, r.2.toList = due.toList ++ out ∧ Hands w r.1 out ∧ r.1.current = w.current ∧
    r.1.Held below inHand

theorem Serves.held {due : Due α} {r : Wheel α × Due α} {below : Nat} {inHand : List TimerId}
    (h : Serves w due below inHand r) : r.1.Held below inHand := by
  obtain ⟨_, _, _, _, hheld⟩ := h
  exact hheld

theorem Serves.trans {due : Due α} {r r' : Wheel α × Due α} {below : Nat} {inHand : List TimerId}
    {below' : Nat} {inHand' : List TimerId} (hfirst : Serves w due below' inHand' r)
    (hsecond : Serves r.1 r.2 below inHand r') : Serves w due below inHand r' := by
  obtain ⟨out, hdue, hhands, hcurrent, _⟩ := hfirst
  obtain ⟨more, hdue', hhands', hcurrent', hheld⟩ := hsecond
  refine ⟨out ++ more, ?_, hhands.trans hhands', hcurrent'.trans hcurrent, hheld⟩
  rw [hdue', hdue, List.append_assoc]

/-! ## One id -/

theorem Held.settle {below : Nat} {id : TimerId} {rest : List TimerId}
    (h : w.Held below (id :: rest)) (due : Due α) : Serves w due below rest (w.settle due id) := by
  unfold Wheel.settle
  cases htask : w.tasks[id]? with
  | none =>
    refine ⟨[], by simp, .refl w, rfl, h.shaped, h.word, h.fresh, ?_⟩
    intro other task hother
    refine (h.located other task hother).imp_left fun hin => ⟨?_, hin.2⟩
    refine (List.mem_cons.mp hin.1).resolve_left ?_
    rintro rfl
    rw [htask] at hother
    cases hother
  | some task =>
    dsimp only
    split
    · rename_i hdue
      have hleft (other : TimerId) : (w.tasks.erase id)[other]? =
          if other ∈ [(id, task.payload)].map (·.1) then none else w.tasks[other]? := by
        rw [Std.HashMap.getElem?_erase]
        by_cases heq : id = other
        · simp [heq]
        · simp [heq, Ne.symm heq]
      have hother {other : TimerId} {task' : Task α}
          (htask' : (w.tasks.erase id)[other]? = some task') :
          other ≠ id ∧ w.tasks[other]? = some task' := by
        rw [hleft] at htask'
        split at htask'
        · cases htask'
        · rename_i hne
          exact ⟨fun heq => hne (by simp [heq]), htask'⟩
      refine ⟨[(id, task.payload)], by simp, ?_, rfl, h.shaped, ?_, ?_, ?_⟩
      · refine ⟨rfl, rfl, Nat.le_refl _, by simp, ?_, hleft⟩
        intro other payload hin
        cases List.mem_singleton.mp hin
        exact ⟨task, htask, rfl, hdue⟩
      · exact fun other task' htask' => h.word other task' (hother htask').2
      · exact fun other task' htask' => h.fresh other task' (hother htask').2
      · intro other task' htask'
        obtain ⟨hne, hold⟩ := hother htask'
        refine (h.located other task' hold).imp_left fun hin => ⟨?_, hin.2⟩
        exact (List.mem_cons.mp hin.1).resolve_left hne
    · rename_i hlate
      refine ⟨[], by simp, ?_, rfl, h.shaped.place id task.deadline, h.word, h.fresh, ?_⟩
      · exact ⟨rfl, rfl, Nat.le_refl _, List.nodup_nil, nofun, fun _ => by simp [place_eq, growTo]⟩
      · intro other task' htask'
        change w.tasks[other]? = some task' at htask'
        rcases eq_or_ne other id with rfl | hne
        · rw [htask] at htask'
          cases htask'
          right
          refine ⟨_, mem_bucket_place h.shaped other task.deadline, Or.inl ?_⟩
          have hlt : w.current < task.deadline := by omega
          exact within_levelFor w.two_le_slots hlt (h.word other task htask)
        · rcases h.located other task' htask' with hin | ⟨level, hin, hwhere⟩
          · left
            exact ⟨(List.mem_cons.mp hin.1).resolve_left hne, hin.2⟩
          · right
            exact ⟨level, mem_bucket_place_of_mem hin id task.deadline, hwhere⟩

theorem Held.settleAll {below : Nat} {ids : List TimerId} (h : w.Held below ids) (due : Due α) :
    Serves w due below [] (ids.foldl (fun (w, due) id => w.settle due id) (w, due)) := by
  induction ids generalizing w due with
  | nil => exact ⟨[], by simp, .refl w, rfl, h⟩
  | cons id rest ih =>
    have hfirst := h.settle due
    exact hfirst.trans (ih hfirst.held _)

/-! ## One level -/

/-- Before a level is served, the tasks in its bucket at the current tick are taken in hand. -/
theorem Held.emptyBucket {level : Nat} (h : w.Held (level + 1) [])
    (hturn : w.current % span w.slots level = 0) :
    (w.emptyBucket level (bucketFor w.slots level w.current)).Held level
      (w.bucket level (bucketFor w.slots level w.current)).toList where
  shaped := h.shaped.modify _ _ _
  word := h.word
  fresh := h.fresh
  located id task htask := by
    rcases h.located id task htask with ⟨hin, _⟩ | ⟨upper, hin, hwhere⟩
    · cases hin
    · by_cases hbucket : level = upper ∧
          bucketFor w.slots level w.current = bucketFor w.slots upper task.deadline
      · left
        obtain ⟨rfl, hsame⟩ := hbucket
        rw [← hsame] at hin
        refine ⟨Array.mem_toList_iff.mpr hin, ?_⟩
        change w.current ≤ task.deadline
        rcases hwhere with hwithin | ⟨_, _, hnow⟩
        · exact Nat.le_of_lt hwithin.lt
        · have hpos := span_pos w.two_le_slots level
          have hfloor := Nat.div_mul_le_self task.deadline (span w.slots level)
          have hexact := Nat.div_mul_cancel (Nat.dvd_of_mod_eq_zero hturn)
          rw [hnow, hexact] at hfloor
          exact hfloor
      · right
        refine ⟨upper, ?_, ?_⟩
        · rw [bucket_emptyBucket]
          exact (if_neg hbucket).symm ▸ hin
        · rcases hwhere with hwithin | ⟨hlt, hup, hnow⟩
          · exact Or.inl hwithin
          · refine Or.inr ⟨?_, hup, hnow⟩
            refine Nat.lt_of_le_of_ne (Nat.le_of_lt_succ hlt) ?_
            rintro rfl
            refine hbucket ⟨rfl, ?_⟩
            unfold bucketFor
            rw [hnow]

theorem Held.serve {level : Nat} (h : w.Held (level + 1) []) (due : Due α) :
    Serves w due level [] (w.serve due level) := by
  unfold Wheel.serve
  split
  · rename_i hturn
    have hserved := (h.emptyBucket hturn).settleAll due
    have hsame : Hands w (w.emptyBucket level (bucketFor w.slots level w.current)) [] :=
      ⟨rfl, rfl, Nat.le_refl _, List.nodup_nil, nofun, fun _ => by simp [Wheel.emptyBucket]⟩
    obtain ⟨out, hdue, hhands, hcurrent, hheld⟩ := hserved
    rw [← Array.foldl_toList]
    exact ⟨out, hdue, hsame.trans hhands, hcurrent, hheld⟩
  · rename_i hturn
    refine ⟨[], by simp, .refl w, rfl, h.shaped, h.word, h.fresh, ?_⟩
    intro id task htask
    rcases h.located id task htask with ⟨hin, _⟩ | ⟨upper, hin, hwithin | ⟨hlt, hup, hnow⟩⟩
    · cases hin
    · exact Or.inr ⟨upper, hin, Or.inl hwithin⟩
    · refine Or.inr ⟨upper, hin, Or.inr ⟨?_, hup, hnow⟩⟩
      refine Nat.lt_of_le_of_ne (Nat.le_of_lt_succ hlt) ?_
      rintro rfl
      exact hturn hup

theorem Held.serveBelow {below : Nat} (h : w.Held below []) (due : Due α) :
    Serves w due 0 [] (w.serveBelow due below) := by
  induction below generalizing w due with
  | zero => exact ⟨[], by simp [Wheel.serveBelow], .refl w, rfl, h⟩
  | succ level ih =>
    have hfirst := h.serve due
    exact hfirst.trans (ih hfirst.held _)

/-! ## Ticks -/

/-- At the next tick the tasks in the buckets that come up are those that are not within a turn any
more. -/
theorem Placed.next (h : w.Placed) :
    ({ w with current := w.current + 1 } : Wheel α).Held w.levels.size [] where
  shaped := h.shaped
  word := h.word
  fresh := h.fresh
  located id task htask := by
    right
    rcases h.located id task htask with ⟨hin, _⟩ | ⟨level, hin, ⟨hlow, hhigh⟩ | ⟨hlt, _⟩⟩
    · cases hin
    · refine ⟨level, hin, ?_⟩
      have hsize : level < w.levels.size := by
        by_contra hout
        change id ∈ w.bucket level _ at hin
        unfold bucket at hin
        rw [Array.getElem?_eq_none (by omega)] at hin
        simp at hin
      change Within w.slots (w.current + 1) level task.deadline ∨ _ ∧
        (w.current + 1) % span w.slots level = 0 ∧ _ = (w.current + 1) / span w.slots level
      unfold Within
      have hdiv : (w.current + 1) / span w.slots level = w.current / span w.slots level +
          if span w.slots level ∣ w.current + 1 then 1 else 0 := Nat.succ_div
      have htwo := w.two_le_slots
      by_cases hturn : (w.current + 1) % span w.slots level = 0
      · rw [if_pos (Nat.dvd_of_mod_eq_zero hturn)] at hdiv
        rw [hdiv]
        change _ ∨ _ ∧ _ ∧ task.deadline / span w.slots level = _
        omega
      · rw [if_neg fun hdvd => hturn (Nat.mod_eq_zero_of_dvd hdvd)] at hdiv
        rw [hdiv]
        omega
    · exact absurd hlt (Nat.not_lt_zero _)

/-- Tasks are handed out between two wheels, and the second has every task in its place. -/
def Moves (w : Wheel α) (due : Due α) (r : Wheel α × Due α) : Prop :=
  ∃ out, r.2.toList = due.toList ++ out ∧ Hands w r.1 out ∧ r.1.Placed

theorem Placed.tick (h : w.Placed) (due : Due α) :
    Moves w due (w.tick due) ∧ (w.tick due).1.current = w.current + 1 := by
  rw [tick_eq_serveBelow]
  obtain ⟨out, hdue, hhands, hcurrent, hheld⟩ := h.next.serveBelow due
  refine ⟨⟨out, hdue, ?_, hheld⟩, hcurrent⟩
  refine ⟨hhands.slots, hhands.nextId, ?_, hhands.nodup, hhands.given, hhands.left⟩
  exact Nat.le_trans (Nat.le_succ _) hhands.mono

theorem Placed.ticks (h : w.Placed) (due : Due α) (n : Nat) :
    Moves w due (w.ticks due n) ∧ (w.ticks due n).1.current = w.current + n := by
  induction n generalizing w due with
  | zero => exact ⟨⟨[], by simp [Wheel.ticks], .refl w, h⟩, rfl⟩
  | succ n ih =>
    obtain ⟨⟨out, hdue, hhands, hplaced⟩, hcurrent⟩ := h.tick due
    obtain ⟨⟨more, hdue', hhands', hplaced'⟩, hcurrent'⟩ := ih hplaced (w.tick due).2
    refine ⟨⟨out ++ more, ?_, hhands.trans hhands', hplaced'⟩, ?_⟩
    · rw [← List.append_assoc, ← hdue]
      exact hdue'
    · rw [hcurrent] at hcurrent'
      change ((w.tick due).1.ticks (w.tick due).2 n).1.current = _
      omega

/-- A wheel hands out, once each, the tasks that are due by the tick to which it moves. -/
theorem Placed.advanceTo (h : w.Placed) (target : Nat) :
    Hands w (w.advanceTo target).2 (w.advanceTo target).1 ∧ (w.advanceTo target).2.Placed ∧
      (w.advanceTo target).2.current = max w.current target := by
  unfold Wheel.advanceTo
  split
  · rename_i hempty
    have hnone (id : TimerId) : w.tasks[id]? = none :=
      Std.HashMap.getElem?_of_isEmpty hempty
    refine ⟨⟨rfl, rfl, Nat.le_max_left .., List.nodup_nil, nofun, fun id => by simp [clearBuckets]⟩,
      ?_, rfl⟩
    exact .of_no_tasks h.shaped.clearBuckets hnone
  · obtain ⟨⟨out, hdue, hhands, hplaced⟩, hcurrent⟩ := h.ticks #[] (target - w.current)
    have hout : (w.ticks #[] (target - w.current)).2.toList = out := by simpa using hdue
    refine ⟨?_, hplaced, ?_⟩
    · change Hands w (w.ticks #[] (target - w.current)).1
        (w.ticks #[] (target - w.current)).2.toList
      rw [hout]
      exact hhands
    · change (w.ticks #[] (target - w.current)).1.current = _
      omega

/-- The tasks that stay are those whose deadline is still to come. -/
theorem Placed.tasks_advanceTo (h : w.Placed) (target : Nat) (id : TimerId) :
    (w.advanceTo target).2.tasks[id]? =
      (w.tasks[id]?).filter fun task => decide (target < task.deadline) := by
  obtain ⟨hhands, hplaced, hcurrent⟩ := h.advanceTo target
  have hleft := hhands.left id
  by_cases hout : id ∈ (w.advanceTo target).1.map (·.1)
  · obtain ⟨⟨_, payload⟩, hin, rfl⟩ := List.mem_map.mp hout
    obtain ⟨task, htask, _, hdue⟩ := hhands.given _ payload hin
    have hlt := h.lt htask
    rw [hleft, if_pos hout, htask, Option.filter_some, if_neg]
    simp only [decide_eq_true_eq]
    omega
  · rw [if_neg hout] at hleft
    rw [hleft]
    cases htask : w.tasks[id]? with
    | none => rfl
    | some task =>
      have hlt := hplaced.lt (hleft.trans htask)
      rw [Option.filter_some, if_pos]
      simp only [decide_eq_true_eq]
      omega

end Wheel

end TimedCache
