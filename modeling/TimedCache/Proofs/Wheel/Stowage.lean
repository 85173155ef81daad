import TimedCache.Proofs.Wheel.Likeness

/-!
That a task has one place on a wheel. A new id is put into one bucket; when the bucket comes up it
is taken out of there before it is put back elsewhere. The bucket is less than a turn of its level
ahead, so if a task is still to wait when the bucket comes up, its deadline falls within the span of
that bucket, and a lower level can hold it.
-/

namespace TimedCache

namespace Wheel

/-! ## The level for a distance -/

section Levels

variable {slots delta : Nat}

end Levels

/-! ## The ids in all buckets -/

variable {α : Type} {w : Wheel α} {id : TimerId} {task : Task α}

/-- The ids in the buckets of all levels. -/
def stowed (w : Wheel α) : List TimerId :=
  w.levels.toList.flatMap fun buckets => buckets.toList.flatMap Array.toList

theorem exists_of_mem_bucket {level i : Nat} (hin : id ∈ w.bucket level i) :
    ∃ buckets ids, w.levels[level]? = some buckets ∧ buckets[i]? = some ids ∧ id ∈ ids := by
  unfold bucket at hin
  cases hbuckets : w.levels[level]? with
  | none =>
    rw [hbuckets] at hin
    exact absurd hin (Array.not_mem_empty id)
  | some buckets =>
    rw [hbuckets, Option.bind_some] at hin
    cases hids : buckets[i]? with
    | none =>
      rw [hids] at hin
      exact absurd hin (Array.not_mem_empty id)
    | some ids =>
      rw [hids] at hin
      exact ⟨buckets, ids, rfl, hids, hin⟩

theorem mem_stowed : id ∈ w.stowed ↔ ∃ level i, id ∈ w.bucket level i := by
  unfold stowed
  simp only [List.mem_flatMap, Array.mem_toList_iff]
  constructor
  · rintro ⟨buckets, hbuckets, ids, hids, hid⟩
    obtain ⟨level, hlevel, rfl⟩ := Array.mem_iff_getElem.mp hbuckets
    obtain ⟨i, hi, rfl⟩ := Array.mem_iff_getElem.mp hids
    refine ⟨level, i, ?_⟩
    unfold bucket
    rw [Array.getElem?_eq_getElem hlevel, Option.bind_some, Array.getElem?_eq_getElem hi]
    exact hid
  · rintro ⟨level, i, hin⟩
    obtain ⟨buckets, ids, hbuckets, hids, hid⟩ := exists_of_mem_bucket hin
    exact ⟨buckets, Array.mem_of_getElem? hbuckets, ids, Array.mem_of_getElem? hids, hid⟩

theorem stowed_eq_nil (h : ∀ level i, w.bucket level i = #[]) : w.stowed = [] := by
  refine List.eq_nil_iff_forall_not_mem.mpr fun id hid => ?_
  obtain ⟨level, i, hin⟩ := mem_stowed.mp hid
  rw [h] at hin
  exact Array.not_mem_empty id hin

theorem count_flatMap_modify {β : Type} (ids : β → List TimerId) (change : β → β) (id : TimerId)
    {xs : List β} {n : Nat} {x : β} (hx : xs[n]? = some x) :
    ((xs.modify n change).flatMap ids).count id + (ids x).count id =
      (xs.flatMap ids).count id + (ids (change x)).count id := by
  induction xs generalizing n with
  | nil => cases hx
  | cons first rest ih =>
    cases n with
    | zero =>
      obtain rfl := Option.some.inj hx
      rw [List.modify_zero_cons, List.flatMap_cons, List.flatMap_cons, List.count_append,
        List.count_append]
      omega
    | succ n =>
      have hrest := ih hx
      rw [List.modify_succ_cons, List.flatMap_cons, List.flatMap_cons, List.count_append,
        List.count_append]
      omega

/-- A change to a bucket changes how often an id is stowed as it changes how often it is in the
bucket. -/
theorem Shaped.count_stowed_modify (h : w.Shaped) {level i : Nat} (hlevel : level < w.levels.size)
    (hi : i < w.slots) (change : Array TimerId → Array TimerId) (id : TimerId) :
    ({ w with levels := w.levels.modify level (·.modify i change) } : Wheel α).stowed.count id +
        (w.bucket level i).toList.count id =
      w.stowed.count id + (change (w.bucket level i)).toList.count id := by
  have hbuckets : w.levels[level]? = some w.levels[level] := Array.getElem?_eq_getElem hlevel
  have hlt : i < w.levels[level].size := by rwa [h level _ hbuckets]
  have hbucket : w.bucket level i = w.levels[level][i] := by
    unfold bucket
    rw [hbuckets, Option.bind_some, Array.getElem?_eq_getElem hlt]
    rfl
  have houter := count_flatMap_modify (fun buckets => buckets.toList.flatMap Array.toList)
    (·.modify i change) id ((Array.getElem?_toList ..).trans hbuckets)
  have hinner := count_flatMap_modify Array.toList change id
    ((Array.getElem?_toList ..).trans (Array.getElem?_eq_getElem hlt))
  rw [Array.toList_modify] at houter
  rw [hbucket]
  unfold stowed
  dsimp only at houter ⊢
  rw [Array.toList_modify]
  omega

theorem stowed_growTo (w : Wheel α) (n : Nat) : (w.growTo n).stowed = w.stowed := by
  unfold stowed growTo emptyLevel
  simp

theorem Shaped.count_stowed_place (h : w.Shaped) (id : TimerId) (deadline : Nat) (other : TimerId) :
    (w.place id deadline).stowed.count other = w.stowed.count other + [id].count other := by
  let level := levelFor w.slots (max (deadline - w.current) 1)
  let grown := w.growTo (level + 1)
  let ids := grown.bucket level (bucketFor w.slots level deadline)
  have hchange : (w.place id deadline).stowed.count other + ids.toList.count other =
      grown.stowed.count other + (ids.push id).toList.count other :=
    (h.growTo (level + 1)).count_stowed_modify (w.size_levels_growTo (level + 1))
      (w.bucketFor_lt level deadline) (·.push id) other
  rw [stowed_growTo, Array.toList_push, List.count_append] at hchange
  omega

theorem Shaped.count_stowed_emptyBucket (h : w.Shaped) {level i : Nat}
    (hlevel : level < w.levels.size) (hi : i < w.slots) (id : TimerId) :
    (w.emptyBucket level i).stowed.count id + (w.bucket level i).toList.count id =
      w.stowed.count id :=
  h.count_stowed_modify hlevel hi (fun _ => #[]) id

/-! ## One place each -/

/-- A wheel while it is served. Each id is in one bucket at most, or among the ids taken from the
bucket in hand, and the buckets with tasks come up in less than a turn. -/
structure Filed (w : Wheel α) (inHand : List TimerId) : Prop where
  shaped : w.Shaped
  word : ∀ (id : TimerId) (task : Task α), w.tasks[id]? = some task → task.deadline ≤ maxWord
  once : ∀ id : TimerId, w.stowed.count id + inHand.count id ≤ 1
  near : ∀ (level i : Nat) (id : TimerId) (task : Task α), id ∈ w.bucket level i →
    w.tasks[id]? = some task → task.deadline < w.current + w.slots * span w.slots level

variable {inHand rest : List TimerId}

/-- A wheel with empty buckets and nothing in hand. -/
theorem Filed.of_no_ids (hshaped : w.Shaped)
    (hword : ∀ (id : TimerId) (task : Task α), w.tasks[id]? = some task → task.deadline ≤ maxWord)
    (hnone : ∀ level i, w.bucket level i = #[]) : w.Filed [] := by
  refine ⟨hshaped, hword, fun id => ?_, fun level i id task hin => ?_⟩
  · rw [stowed_eq_nil hnone]
    exact Nat.zero_le 1
  · rw [hnone] at hin
    exact absurd hin (Array.not_mem_empty id)

theorem Filed.pass (h : w.Filed (id :: rest)) : w.Filed rest := by
  refine ⟨h.shaped, h.word, fun other => ?_, h.near⟩
  have honce := h.once other
  rw [List.count_cons] at honce
  omega

theorem Filed.forget (h : w.Filed inHand) (id : TimerId) : (w.cancel id).2.Filed inHand :=
  ⟨h.shaped, fun other task htask => h.word other task (of_tasks_cancel htask).2, h.once,
    fun level i other task hin htask => h.near level i other task hin (of_tasks_cancel htask).2⟩

/-- An id in hand is put into a bucket for its deadline. -/
theorem Filed.place (h : w.Filed (id :: rest)) (htask : w.tasks[id]? = some task)
    (hlate : w.current < task.deadline) : (w.place id task.deadline).Filed rest := by
  refine ⟨h.shaped.place id task.deadline, h.word, fun other => ?_,
    fun level i other task' hin htask' => ?_⟩
  · have honce := h.once other
    rw [h.shaped.count_stowed_place, Nat.add_assoc, ← List.count_append]
    exact honce
  · change w.tasks[other]? = some task' at htask'
    change task'.deadline < w.current + w.slots * span w.slots level
    rw [bucket_place h.shaped] at hin
    split at hin
    · rename_i hchosen
      rcases Array.mem_push.mp hin with hold | rfl
      · exact h.near level i other task' hold htask'
      · obtain rfl : task = task' := Option.some.inj (htask.symm.trans htask')
        have hdistance : max (task.deadline - w.current) 1 ≤ maxWord := by
          have hword := h.word other task htask
          omega
        have hturn := lt_turn_levelFor w.two_le_slots hdistance
        rw [hchosen.1] at hturn
        omega
    · exact h.near level i other task' hin htask'

theorem Filed.settle (h : w.Filed (id :: rest)) (due : Due α) : (w.settle due id).1.Filed rest := by
  cases htask : w.tasks[id]? with
  | none =>
    rw [settle_of_none htask]
    exact h.pass
  | some task =>
    rw [settle_of_some htask]
    split
    · exact h.pass.forget id
    · rename_i hlate
      exact h.place htask (Nat.lt_of_not_le hlate)

theorem Filed.settleAll {ids : List TimerId} (h : w.Filed ids) (due : Due α) :
    (ids.foldl (fun (w, due) id => w.settle due id) (w, due)).1.Filed [] := by
  induction ids generalizing w due with
  | nil => exact h
  | cons id rest ih => exact ih (h.settle due) _

theorem Filed.emptyBucket (h : w.Filed []) {level i : Nat} (hlevel : level < w.levels.size)
    (hi : i < w.slots) : (w.emptyBucket level i).Filed (w.bucket level i).toList := by
  refine ⟨h.shaped.modify _ _ _, h.word, fun id => ?_, fun upper j id task hin htask => ?_⟩
  · rw [h.shaped.count_stowed_emptyBucket hlevel hi]
    exact h.once id
  · rw [bucket_emptyBucket] at hin
    split at hin
    · exact absurd hin (Array.not_mem_empty id)
    · exact h.near upper j id task hin htask

theorem Filed.serve (h : w.Filed []) (due : Due α) (level : Nat) :
    (w.serve due level).1.Filed [] := by
  rcases Nat.lt_or_ge level w.levels.size with hlevel | hlevel
  · unfold Wheel.serve
    split
    · dsimp only
      rw [← Array.foldl_toList]
      exact (h.emptyBucket hlevel (w.bucketFor_lt level w.current)).settleAll due
    · exact h
  · rw [serve_of_size_le hlevel]
    exact h

/-- Serves the `n` levels from `level` on, the highest of them first. -/
def serveAbove (w : Wheel α) (due : Due α) (level : Nat) : Nat → Wheel α × Due α
  | 0 => (w, due)
  | n + 1 =>
    let (w, due) := w.serve due (level + n)
    serveAbove w due level n

/-- The levels below are served after those above. -/
theorem serveBelow_add (w : Wheel α) (due : Due α) (level n : Nat) :
    w.serveBelow due (level + n) =
      (w.serveAbove due level n).1.serveBelow (w.serveAbove due level n).2 level := by
  induction n generalizing w due with
  | zero => rfl
  | succ n ih => exact ih _ _

theorem Filed.serveAbove (h : w.Filed []) (due : Due α) (level n : Nat) :
    (w.serveAbove due level n).1.Filed [] := by
  induction n generalizing w due with
  | zero => exact h
  | succ n ih => exact ih (h.serve due (level + n)) _

theorem Held.mono {below above : Nat} (h : w.Held below inHand) (hle : below ≤ above) :
    w.Held above inHand := by
  refine ⟨h.shaped, h.word, h.fresh, fun id task htask => ?_⟩
  rcases h.located id task htask with hhand | ⟨level, hin, hwithin | ⟨hlt, hturn⟩⟩
  · exact Or.inl hhand
  · exact Or.inr ⟨level, hin, Or.inl hwithin⟩
  · exact Or.inr ⟨level, hin, Or.inr ⟨Nat.lt_of_lt_of_le hlt hle, hturn⟩⟩

theorem Held.serveAbove {level n : Nat} (h : w.Held (level + n) []) (due : Due α) :
    Serves w due level [] (w.serveAbove due level n) := by
  induction n generalizing w due with
  | zero => exact ⟨[], by simp [Wheel.serveAbove], .refl w, rfl, h⟩
  | succ n ih =>
    have hfirst := h.serve due
    exact hfirst.trans (ih hfirst.held _)

theorem Filed.serveBelow (h : w.Filed []) (due : Due α) (n : Nat) :
    (w.serveBelow due n).1.Filed [] := by
  rw [← Nat.zero_add n, serveBelow_add]
  exact h.serveAbove due 0 n

theorem Filed.next (h : w.Filed []) : ({ w with current := w.current + 1 } : Wheel α).Filed [] := by
  refine ⟨h.shaped, h.word, h.once, fun level i id task hin htask => ?_⟩
  have hnear := h.near level i id task hin htask
  change task.deadline < w.current + 1 + w.slots * span w.slots level
  omega

theorem Filed.tick (h : w.Filed []) (due : Due α) : (w.tick due).1.Filed [] := by
  rw [tick_eq_serveBelow]
  exact h.next.serveBelow due _

theorem Filed.ticks (h : w.Filed []) (due : Due α) (n : Nat) : (w.ticks due n).1.Filed [] := by
  induction n generalizing w due with
  | zero => exact h
  | succ n ih => exact ih (h.tick due) _

/-! ## Requests -/

theorem Filed.advanceTo (h : w.Filed []) (target : Nat) : (w.advanceTo target).2.Filed [] := by
  unfold Wheel.advanceTo
  split
  · exact .of_no_ids h.shaped.clearBuckets h.word w.bucket_clearBuckets
  · exact h.ticks #[] (target - w.current)

theorem Filed.clear (h : w.Filed []) : w.clear.Filed [] := by
  refine .of_no_ids h.shaped.clearBuckets (fun id task htask => ?_) w.bucket_clearBuckets
  rw [tasks_clear] at htask
  cases htask

theorem Filed.add (h : w.Filed []) (hregular : w.Regular) {deadline : Nat} (payload : α)
    (hword : deadline ≤ maxWord) (hlast : w.atLastTick = false) :
    (w.add deadline payload).2.Filed [] := by
  have hnext : w.current < maxWord := by simpa [atLastTick] using hlast
  have hle : max deadline (w.current + 1) ≤ maxWord := by omega
  have hlt : w.current < max deadline (w.current + 1) := by omega
  have hnew : w.stowed.count w.nextId = 0 := by
    refine List.count_eq_zero.mpr fun hid => ?_
    obtain ⟨level, i, hin⟩ := mem_stowed.mp hid
    exact Nat.lt_irrefl _ (hregular.given level i _ hin)
  have hentered : (w.entered ⟨max deadline (w.current + 1), payload⟩).Filed [w.nextId] := by
    refine ⟨h.shaped, fun id task htask => ?_, fun id => ?_, fun level i id task hin htask => ?_⟩
    · rcases of_tasks_entered htask with ⟨_, rfl⟩ | hold
      · exact hle
      · exact h.word id task hold
    · have honce : w.stowed.count id + 0 ≤ 1 := h.once id
      change w.stowed.count id + [w.nextId].count id ≤ 1
      rw [List.count_singleton]
      split
      · rename_i heq
        rw [beq_iff_eq] at heq
        rw [← heq, hnew]
      · exact honce
    · rcases of_tasks_entered htask with ⟨rfl, _⟩ | hold
      · exact absurd (hregular.given level i _ hin) (Nat.lt_irrefl _)
      · exact h.near level i id task hin hold
  have htask : (w.entered ⟨max deadline (w.current + 1), payload⟩).tasks[w.nextId]? =
      some ⟨max deadline (w.current + 1), payload⟩ := by
    rw [tasks_entered, if_pos rfl]
  have hplaced := hentered.place htask hlt
  rw [add_eq]
  exact hplaced

theorem Filed.answer (h : w.Filed []) (hregular : w.Regular) (r : Request α) :
    (w.answer r).2.Filed [] := by
  cases r with
  | insert deadline payload =>
    rw [answer_insert]
    cases hlast : w.atLastTick with
    | true => exact h
    | false => exact h.add hregular payload (toNat_le_maxWord deadline) hlast
  | cancel id => exact h.forget id
  | clear => exact h.clear
  | advanceTo target => exact h.advanceTo target.toNat

theorem Filed.after (h : w.Filed []) (hregular : w.Regular) (requests : List (Request α)) :
    (w.after requests).Filed [] := by
  induction requests generalizing w with
  | nil => exact h
  | cons r rest ih =>
    exact ih (h.answer hregular r) ((Matches.refl hregular).answer r).2.left

end Wheel

end TimedCache
