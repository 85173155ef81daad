import Mathlib.Tactic
import TimedCache.Wheel

/-!
Where a wheel keeps its tasks. A task sits in a bucket that comes up within one turn of its level,
and for the first time no later than its deadline. Placing it anew never puts it into a bucket that
comes up before that or that has just come up.
-/

namespace TimedCache

namespace Wheel

/-! ## Levels -/

section Levels

variable {slots delta current deadline : Nat}

theorem span_pos (h : 2 ≤ slots) (level : Nat) : 0 < span slots level := by
  rw [span_eq_clampWord h, Nat.pow_eq]
  have hpow : 0 < slots ^ level := Nat.pow_pos (by omega)
  unfold clampWord maxWord
  omega

theorem span_zero (h : 2 ≤ slots) : span slots 0 = 1 := by
  rw [span_eq_clampWord h, Nat.pow_eq]
  rfl

theorem span_top (h : 2 ≤ slots) : span slots 64 = maxWord := by
  rw [span_eq_clampWord h, Nat.pow_eq]
  apply Nat.min_eq_right
  exact Nat.le_trans (by decide : maxWord ≤ 2 ^ 64) (Nat.pow_le_pow_left h 64)

/-- Below the greatest word each bucket of a level spans a whole turn of the level beneath. -/
theorem span_succ_le (h : 2 ≤ slots) {level : Nat} (hword : span slots level < maxWord) :
    span slots (level + 1) ≤ slots * span slots level := by
  rw [span_eq_clampWord h, Nat.pow_eq] at hword ⊢
  rw [span_eq_clampWord h, Nat.pow_eq]
  have hexact : clampWord (slots ^ level) = slots ^ level := by
    unfold clampWord at hword ⊢
    omega
  rw [hexact]
  calc clampWord (slots ^ (level + 1)) ≤ slots ^ (level + 1) := Nat.min_le_left ..
    _ = slots * slots ^ level := Nat.pow_succ'

theorem levelFrom_spec (slots delta fuel level : Nat) :
    (levelFrom slots delta fuel level = level ∨
      span slots (levelFrom slots delta fuel level) ≤ delta) ∧
    (levelFrom slots delta fuel level = level + fuel ∨
      maxWord ≤ span slots (levelFrom slots delta fuel level) ∨
        delta < span slots (levelFrom slots delta fuel level + 1)) := by
  induction fuel generalizing level with
  | zero => exact ⟨Or.inl rfl, Or.inl rfl⟩
  | succ fuel ih =>
    unfold levelFrom
    split
    · rename_i hnext
      obtain ⟨hreach, hstop⟩ := ih (level + 1)
      refine ⟨?_, ?_⟩
      · rcases hreach with heq | hle
        · right
          rw [heq]
          exact hnext.2
        · exact Or.inr hle
      · rwa [Nat.add_assoc, Nat.add_comm 1] at hstop
    · rename_i hlast
      refine ⟨Or.inl rfl, Or.inr ?_⟩
      omega

theorem levelFor_spec (h : 2 ≤ slots) (delta : Nat) :
    (levelFor slots delta = 0 ∨ span slots (levelFor slots delta) ≤ delta) ∧
      (maxWord ≤ span slots (levelFor slots delta) ∨
        delta < span slots (levelFor slots delta + 1)) := by
  obtain ⟨hreach, hstop⟩ := levelFrom_spec slots delta 64 0
  refine ⟨hreach, ?_⟩
  rcases hstop with htop | hstop
  · left
    rw [show levelFor slots delta = 64 from htop, span_top h]
  · exact hstop

/-- The level chosen for a distance covers it in less than a turn. -/
theorem lt_turn_levelFor (h : 2 ≤ slots) (hword : delta ≤ maxWord) :
    delta < slots * span slots (levelFor slots delta) := by
  obtain ⟨_, hstop⟩ := levelFor_spec h delta
  rcases Nat.lt_or_ge (span slots (levelFor slots delta)) maxWord with hlow | hhigh
  · have hsucc := span_succ_le h hlow
    rcases hstop with htop | hbelow <;> omega
  · have htwice : 2 * span slots (levelFor slots delta) ≤
        slots * span slots (levelFor slots delta) := Nat.mul_le_mul_right _ h
    have hpos : 0 < maxWord := by decide
    omega

/-- The bucket for a deadline comes up within a turn of its level. -/
def Within (slots current level deadline : Nat) : Prop :=
  current / span slots level < deadline / span slots level ∧
    deadline / span slots level ≤ current / span slots level + slots

theorem Within.lt {level : Nat} (h : Within slots current level deadline) :
    current < deadline := by
  by_contra hle
  have hdiv : deadline / span slots level ≤ current / span slots level :=
    Nat.div_le_div_right (by omega)
  have hlt := h.1
  omega

/-- The level chosen for a deadline has a bucket for it that is yet to come up. -/
theorem within_levelFor (h : 2 ≤ slots) (hlt : current < deadline) (hword : deadline ≤ maxWord) :
    Within slots current (levelFor slots (max (deadline - current) 1)) deadline := by
  have hmax : max (deadline - current) 1 = deadline - current := by omega
  rw [hmax]
  obtain ⟨hreach, _⟩ := levelFor_spec h (deadline - current)
  have hpos := span_pos h (levelFor slots (deadline - current))
  have hnear : span slots (levelFor slots (deadline - current)) ≤ deadline - current := by
    rcases hreach with hzero | hle
    · rw [hzero, span_zero h]
      omega
    · exact hle
  have hturn := lt_turn_levelFor h (Nat.le_trans (Nat.sub_le deadline current) hword)
  have hfar : deadline ≤ current + slots * span slots (levelFor slots (deadline - current)) := by
    omega
  unfold Within
  generalize span slots (levelFor slots (deadline - current)) = step at hpos hnear hfar ⊢
  refine ⟨?_, ?_⟩
  · have hnext : (current + step) / step = current / step + 1 := Nat.add_div_right _ hpos
    have hmono : (current + step) / step ≤ deadline / step := Nat.div_le_div_right (by omega)
    omega
  · have hturn : (current + slots * step) / step = current / step + slots :=
      Nat.add_mul_div_right _ _ hpos
    have hmono : deadline / step ≤ (current + slots * step) / step := Nat.div_le_div_right hfar
    omega

end Levels

/-! ## Buckets -/

variable {α : Type} {w : Wheel α}

/-- Each level has a bucket for each slot. -/
def Shaped (w : Wheel α) : Prop :=
  ∀ (level : Nat) (buckets : Array (Array TimerId)), w.levels[level]? = some buckets →
    buckets.size = w.slots

theorem bucketFor_lt (w : Wheel α) (level deadline : Nat) :
    bucketFor w.slots level deadline < w.slots :=
  Nat.mod_lt _ (Nat.lt_of_lt_of_le Nat.zero_lt_two w.two_le_slots)

theorem bucket_modify (w : Wheel α) (level i : Nat) (f : Array TimerId → Array TimerId)
    (upper j : Nat) :
    ({ w with levels := w.levels.modify level (·.modify i f) } : Wheel α).bucket upper j =
      if level = upper ∧ i = j then (((w.levels[upper]?).bind (·[j]?)).map f).getD #[]
      else w.bucket upper j := by
  unfold bucket
  dsimp only
  rw [Array.getElem?_modify]
  by_cases hlevel : level = upper
  · rw [if_pos hlevel]
    cases w.levels[upper]? with
    | none => simp
    | some buckets =>
      simp only [Option.map_some, Option.bind_some, Array.getElem?_modify]
      by_cases hi : i = j
      · rw [if_pos hi, if_pos ⟨hlevel, hi⟩]
      · rw [if_neg hi, if_neg fun hboth => hi hboth.2]
  · rw [if_neg hlevel, if_neg fun hboth => hlevel hboth.1]

theorem Shaped.modify (h : w.Shaped) (level i : Nat) (f : Array TimerId → Array TimerId) :
    ({ w with levels := w.levels.modify level (·.modify i f) } : Wheel α).Shaped := by
  intro upper buckets hbuckets
  change (w.levels.modify level (·.modify i f))[upper]? = some buckets at hbuckets
  rw [Array.getElem?_modify] at hbuckets
  split at hbuckets
  · obtain ⟨old, hold, rfl⟩ := Option.map_eq_some_iff.mp hbuckets
    rw [Array.size_modify]
    exact h upper old hold
  · exact h upper buckets hbuckets

theorem bucket_growTo (w : Wheel α) (n level i : Nat) :
    (w.growTo n).bucket level i = w.bucket level i := by
  unfold bucket growTo
  dsimp only
  rw [Array.getElem?_append]
  split
  · rfl
  · rename_i hout
    rw [Array.getElem?_eq_none (by omega : w.levels.size ≤ level), Array.getElem?_replicate]
    split
    · simp only [Option.bind_some, emptyLevel, Array.getElem?_replicate]
      split <;> rfl
    · rfl

theorem Shaped.growTo (h : w.Shaped) (n : Nat) : (w.growTo n).Shaped := by
  intro level buckets hbuckets
  unfold Wheel.growTo at hbuckets
  dsimp only at hbuckets
  rw [Array.getElem?_append] at hbuckets
  split at hbuckets
  · exact h level buckets hbuckets
  · rw [Array.getElem?_replicate] at hbuckets
    split at hbuckets
    · cases hbuckets
      exact Array.size_replicate
    · cases hbuckets

theorem size_levels_growTo (w : Wheel α) (n : Nat) : n ≤ (w.growTo n).levels.size := by
  unfold growTo
  simp only [Array.size_append, Array.size_replicate]
  omega

theorem place_eq (w : Wheel α) (id : TimerId) (deadline : Nat) :
    w.place id deadline =
      { w.growTo (levelFor w.slots (max (deadline - w.current) 1) + 1) with
        levels := (w.growTo (levelFor w.slots (max (deadline - w.current) 1) + 1)).levels.modify
          (levelFor w.slots (max (deadline - w.current) 1))
          (·.modify (bucketFor w.slots (levelFor w.slots (max (deadline - w.current) 1)) deadline)
            (·.push id)) } := rfl

theorem Shaped.place (h : w.Shaped) (id : TimerId) (deadline : Nat) :
    (w.place id deadline).Shaped := by
  rw [place_eq]
  exact (h.growTo _).modify _ _ _

theorem mem_bucket_place_of_mem {level i : Nat} {other : TimerId} (h : other ∈ w.bucket level i)
    (id : TimerId) (deadline : Nat) : other ∈ (w.place id deadline).bucket level i := by
  rw [place_eq, bucket_modify]
  rw [← w.bucket_growTo (levelFor w.slots (max (deadline - w.current) 1) + 1) level i] at h
  split
  · unfold bucket at h
    generalize ((w.growTo _).levels[level]?).bind (·[i]?) = found at h ⊢
    cases found with
    | none => exact h
    | some ids => exact Array.mem_push_of_mem _ h
  · exact h

theorem mem_bucket_place (h : w.Shaped) (id : TimerId) (deadline : Nat) :
    id ∈ (w.place id deadline).bucket (levelFor w.slots (max (deadline - w.current) 1))
      (bucketFor w.slots (levelFor w.slots (max (deadline - w.current) 1)) deadline) := by
  rw [place_eq, bucket_modify, if_pos ⟨rfl, rfl⟩]
  have hsize := w.size_levels_growTo (levelFor w.slots (max (deadline - w.current) 1) + 1)
  have hshaped := h.growTo (levelFor w.slots (max (deadline - w.current) 1) + 1)
  have hslots : (w.growTo (levelFor w.slots (max (deadline - w.current) 1) + 1)).slots = w.slots :=
    rfl
  generalize levelFor w.slots (max (deadline - w.current) 1) = level at hsize hshaped hslots ⊢
  have hlevel : (w.growTo (level + 1)).levels[level]? =
      some (w.growTo (level + 1)).levels[level] := Array.getElem?_eq_getElem (by omega)
  have hlt : bucketFor w.slots level deadline < (w.growTo (level + 1)).levels[level].size := by
    rw [hshaped level _ hlevel, hslots]
    exact w.bucketFor_lt level deadline
  rw [hlevel, Option.bind_some, Array.getElem?_eq_getElem hlt]
  exact Array.mem_push_self

theorem bucket_emptyBucket (w : Wheel α) (level i upper j : Nat) :
    (w.emptyBucket level i).bucket upper j =
      if level = upper ∧ i = j then #[] else w.bucket upper j := by
  unfold emptyBucket
  rw [bucket_modify]
  split
  · cases (w.levels[upper]?).bind (·[j]?) <;> rfl
  · rfl

end Wheel

end TimedCache
