import Mathlib.Data.List.Nodup
import Mathlib.Tactic
import TimedCache.Store

/-!
Laws of the sharded store. Looking a key up after an operation is described without mention of
shards; a store whose keys lie in their own shards lists every key once, so its size is the number
of its keys.
-/

namespace TimedCache.Store

variable {hash : String → UInt64} {α : Type}

/-! ## Looking up -/

theorem getElem?_shardOf (s : Store hash α) (key : String) :
    s.shards[s.shardOf key]? = some (s.shard key) :=
  Array.getElem?_eq_getElem (s.shardOf_lt key)

theorem shard_onShard (s : Store hash α) (key other : String)
    (change : Std.HashMap String α → Std.HashMap String α) :
    (s.onShard key change).shard other =
      if s.shardOf key = s.shardOf other then change (s.shard other) else s.shard other := by
  have hnew := getElem?_shardOf (s.onShard key change) other
  have hold := getElem?_shardOf s other
  have hindex : (s.onShard key change).shardOf other = s.shardOf other := rfl
  rw [hindex] at hnew
  simp only [onShard, Array.getElem?_modify, hold] at hnew
  split at hnew
  · rename_i heq
    rw [if_pos heq]
    exact (Option.some.inj hnew).symm
  · rename_i hne
    rw [if_neg hne]
    exact (Option.some.inj hnew).symm

theorem get?_insert (s : Store hash α) (key other : String) (slot : α) :
    (s.insert key slot).get? other = if key = other then some slot else s.get? other := by
  unfold get? insert
  rw [shard_onShard]
  by_cases hkey : key = other
  · subst hkey
    simp
  · rw [if_neg hkey]
    split
    · simp [Std.HashMap.getElem?_insert, hkey]
    · rfl

theorem get?_erase (s : Store hash α) (key other : String) :
    (s.erase key).get? other = if key = other then none else s.get? other := by
  unfold get? erase
  rw [shard_onShard]
  by_cases hkey : key = other
  · subst hkey
    simp
  · rw [if_neg hkey]
    split
    · simp [Std.HashMap.getElem?_erase, hkey]
    · rfl

theorem take_fst (s : Store hash α) (key : String) : (s.take key).1 = s.get? key := by
  unfold take
  split <;> simp_all

theorem get?_take (s : Store hash α) (key other : String) :
    (s.take key).2.get? other = if key = other then none else s.get? other := by
  unfold take
  cases hget : s.get? key with
  | some slot => exact get?_erase s key other
  | none =>
    dsimp only
    split
    · rename_i heq
      rw [← heq, hget]
    · rfl

theorem takeIf_fst (s : Store hash α) (key : String) (test : α → Bool) :
    (s.takeIf key test).1 = (s.get? key).filter test := by
  unfold takeIf
  cases s.get? key with
  | some slot =>
    dsimp only
    split
    · rename_i htest
      rw [Option.filter_some, if_pos htest]
    · rename_i htest
      rw [Option.filter_some, if_neg htest]
  | none => rfl

theorem get?_takeIf (s : Store hash α) (key other : String) (test : α → Bool) :
    (s.takeIf key test).2.get? other =
      if key = other ∧ (s.get? key).any test then none else s.get? other := by
  unfold takeIf
  cases hget : s.get? key with
  | some slot =>
    dsimp only
    by_cases htest : test slot = true
    · simp [htest, get?_erase]
    · simp [htest]
  | none => simp

@[simp] theorem get?_clear (s : Store hash α) (key : String) : s.clear.get? key = none := by
  have hshard := getElem?_shardOf s.clear key
  have hempty : s.clear.shards[s.clear.shardOf key]? = some ∅ := by
    have hold := getElem?_shardOf s key
    change (s.shards.map fun _ => ∅)[s.shardOf key]? = some ∅
    rw [Array.getElem?_map, hold]
    rfl
  unfold get?
  rw [← Option.some.inj (hempty.symm.trans hshard)]
  simp

theorem get?_withShards {n : Nat} {s : Store hash α} (h : withShards n = .ok s) (key : String) :
    s.get? key = none := by
  unfold withShards at h
  split at h
  · cases h
    unfold get?
    let empty : Store hash α :=
      { mask := shardsFor n - 1
        shards := Array.replicate (shardsFor n - 1 + 1) ∅, size_shards := by simp }
    have hshard := getElem?_shardOf empty key
    rw [Array.getElem?_replicate] at hshard
    split at hshard
    · rw [← Option.some.inj hshard]
      simp
    · simp at hshard
  · cases h

/-! ## Routing -/

/-- Every key lies in the shard that its hash names. -/
def Routed (s : Store hash α) : Prop :=
  ∀ i shard, s.shards[i]? = some shard → ∀ key ∈ shard, s.shardOf key = i

theorem routed_withShards {n : Nat} {s : Store hash α} (h : withShards n = .ok s) :
    s.Routed := by
  unfold withShards at h
  split at h
  · cases h
    intro i shard hshard key hkey
    rw [Array.getElem?_replicate] at hshard
    split at hshard
    · rw [← Option.some.inj hshard] at hkey
      simp at hkey
    · simp at hshard
  · cases h

theorem Routed.onShard {s : Store hash α} (h : s.Routed) {key : String}
    {change : Std.HashMap String α → Std.HashMap String α}
    (hchange : ∀ shard other, other ∈ change shard → other ∈ shard ∨ other = key) :
    (s.onShard key change).Routed := by
  intro i shard hshard other hother
  change s.shardOf other = i
  simp only [Store.onShard, Array.getElem?_modify] at hshard
  split at hshard
  · rename_i hi
    obtain ⟨old, hold, rfl⟩ := Option.map_eq_some_iff.mp hshard
    rcases hchange old other hother with hmem | rfl
    · exact h i old hold other hmem
    · exact hi
  · exact h i shard hshard other hother

theorem Routed.insert {s : Store hash α} (h : s.Routed) (key : String) (slot : α) :
    (s.insert key slot).Routed := by
  apply h.onShard
  intro shard other hother
  rcases Std.HashMap.mem_insert.mp hother with heq | hmem
  · exact Or.inr (by simpa using (beq_iff_eq.mp heq).symm)
  · exact Or.inl hmem

theorem Routed.erase {s : Store hash α} (h : s.Routed) (key : String) : (s.erase key).Routed := by
  apply h.onShard
  intro shard other hother
  exact Or.inl (Std.HashMap.mem_erase.mp hother).2

theorem Routed.take {s : Store hash α} (h : s.Routed) (key : String) :
    (s.take key).2.Routed := by
  unfold Store.take
  split
  · exact h.erase key
  · exact h

theorem Routed.takeIf {s : Store hash α} (h : s.Routed) (key : String) (test : α → Bool) :
    (s.takeIf key test).2.Routed := by
  unfold Store.takeIf
  split
  · split
    · exact h.erase key
    · exact h
  · exact h

theorem Routed.clear {s : Store hash α} : s.clear.Routed := by
  intro i shard hshard key hkey
  simp only [Store.clear, Array.getElem?_map] at hshard
  obtain ⟨_, _, rfl⟩ := Option.map_eq_some_iff.mp hshard
  simp at hkey

/-! ## Listing -/

theorem Routed.mem_toList {s : Store hash α} (h : s.Routed) {key : String} {slot : α} :
    (key, slot) ∈ s.toList ↔ s.get? key = some slot := by
  unfold toList get?
  simp only [List.mem_flatMap, Array.mem_toList_iff, Std.HashMap.mem_toList_iff_getElem?_eq_some]
  constructor
  · rintro ⟨shard, hmem, hslot⟩
    obtain ⟨i, hi⟩ := Array.getElem?_of_mem hmem
    have hkey : key ∈ shard := by
      rw [Std.HashMap.mem_iff_isSome_getElem?, hslot]
      rfl
    have hindex := h i shard hi key hkey
    have hshard := getElem?_shardOf s key
    rw [hindex, hi] at hshard
    rw [← Option.some.inj hshard]
    exact hslot
  · intro hslot
    exact ⟨s.shard key, Array.mem_of_getElem? (getElem?_shardOf s key), hslot⟩

theorem length_toList (s : Store hash α) : s.toList.length = s.size := by
  unfold toList size
  rw [← Array.foldl_toList, List.length_flatMap, List.sum_eq_foldl, List.foldl_map]
  simp only [Std.HashMap.length_toList]

theorem Routed.nodup_keys {s : Store hash α} (h : s.Routed) :
    (s.toList.map (·.1)).Nodup := by
  unfold toList
  rw [List.map_flatMap, List.nodup_flatMap]
  constructor
  · intro shard _
    rw [List.nodup_iff_pairwise_ne, List.pairwise_map]
    exact Std.HashMap.distinct_keys_toList.imp fun hne => by simpa using hne
  · rw [List.pairwise_iff_getElem]
    intro i j hi hj hij key hleft hright
    have indexOf (n : Nat) (hn : n < s.shards.toList.length)
        (hkey : key ∈ (s.shards.toList[n]).toList.map (·.1)) : s.shardOf key = n := by
      obtain ⟨⟨_, slot⟩, hslot, rfl⟩ := List.mem_map.mp hkey
      apply h n s.shards.toList[n] (by simp [Array.getElem?_eq_getElem (by simpa using hn)])
      rw [Std.HashMap.mem_iff_isSome_getElem?,
        Std.HashMap.mem_toList_iff_getElem?_eq_some.mp hslot]
      rfl
    have := indexOf i hi hleft
    have := indexOf j hj hright
    omega

theorem isEmpty_iff_size (s : Store hash α) : s.isEmpty = true ↔ s.size = 0 := by
  rw [← length_toList]
  unfold isEmpty toList
  simp only [Array.all_eq_true_iff_forall_mem, List.length_eq_zero_iff, List.flatMap_eq_nil_iff,
    Array.mem_toList_iff]
  refine forall₂_congr fun shard _ => ?_
  rw [← List.length_eq_zero_iff, Std.HashMap.length_toList, Std.HashMap.isEmpty_eq_size_eq_zero,
    beq_iff_eq]

end TimedCache.Store
