import Mathlib.Data.Finmap
import TimedCache.Proofs.Store

/-!
Sharding goes unnoticed. Callers of a sharded store get the answers of one plain map from keys to
slots, whatever the hash and the number of shards: the store represents the map, every operation
keeps it so, and a whole run of operations follows by induction.
-/

namespace TimedCache.Store

variable {hash : String → UInt64} {α ω : Type}

/-! ## The number of shards -/

theorem shardsFor_eq (n : Nat) :
    shardsFor n = if n ≤ 1 then 1 else 2 ^ ((n - 1).log2 + 1) := by
  unfold shardsFor
  rw [Nat.one_shiftLeft]

theorem shardsFor_eq_two_pow (n : Nat) : ∃ k, shardsFor n = 2 ^ k := by
  rw [shardsFor_eq]
  split
  · exact ⟨0, rfl⟩
  · exact ⟨_, rfl⟩

theorem le_shardsFor (n : Nat) : max 1 n ≤ shardsFor n := by
  rw [shardsFor_eq]
  split
  · omega
  · have := Nat.lt_log2_self (n := n - 1)
    omega

theorem shardsFor_le {n k : Nat} (h : n ≤ 2 ^ k) : shardsFor n ≤ 2 ^ k := by
  rw [shardsFor_eq]
  split
  · exact Nat.one_le_two_pow
  · have hpos : n - 1 ≠ 0 := by omega
    have hlt : (n - 1).log2 < k := (Nat.log2_lt hpos).mpr (by omega)
    exact Nat.pow_le_pow_right (by omega) hlt

/-- A table can hold the shards for up to `2 ^ 57`. -/
theorem fits_iff (n : Nat) : fits n = true ↔ n ≤ 2 ^ 57 := by
  unfold fits tableFits maxTableBytes
  rw [decide_eq_true_iff]
  constructor
  · intro hfits
    by_contra hlarge
    obtain ⟨k, hk⟩ := shardsFor_eq_two_pow n
    have hle := le_shardsFor n
    have hexp : 57 < k := by
      by_contra hsmall
      have := Nat.pow_le_pow_right (n := 2) (by omega) (Nat.not_lt.mp hsmall)
      omega
    have hpow : 2 ^ 58 ≤ 2 ^ k := Nat.pow_le_pow_right (by omega) hexp
    omega
  · intro hsmall
    have := shardsFor_le hsmall
    omega

theorem shardCount_eq (s : Store hash α) : s.shardCount = s.mask + 1 := s.size_shards

/-- The bits under the mask are the remainder by the number of shards. -/
theorem shardOf_eq_mod {s : Store hash α} (h : ∃ k, s.shardCount = 2 ^ k) (key : String) :
    s.shardOf key = (hash key).toNat % s.shardCount := by
  obtain ⟨k, hk⟩ := h
  have hmask : s.mask = 2 ^ k - 1 := by
    rw [← hk, shardCount_eq]
    rfl
  rw [hk]
  unfold shardOf
  rw [hmask]
  exact Nat.and_two_pow_sub_one_eq_mod _ k

theorem shardCount_withShards {n : Nat} {s : Store hash α} (h : withShards n = .ok s) :
    s.shardCount = shardsFor n := by
  have hpos := le_shardsFor n
  unfold withShards at h
  split at h
  · cases h
    rw [shardCount_eq]
    change shardsFor n - 1 + 1 = shardsFor n
    omega
  · cases h

theorem exists_withShards {n : Nat} (h : n ≤ maxShards) :
    ∃ s : Store hash α, withShards n = .ok s := by
  unfold withShards
  rw [if_pos h]
  exact ⟨_, rfl⟩

theorem withShards_of_allocate {n : Nat} {s : Store hash α} (h : allocate n = .ok s) :
    withShards n = .ok s := by
  unfold allocate at h
  split at h
  · exact h
  · cases h

theorem allocate_of_too_many {n : Nat} (h : 2 ^ 57 < n) :
    (allocate n : Except Overflow (Store hash α)) = .error .tableSize := by
  unfold allocate
  rw [if_neg]
  rw [fits_iff]
  omega

theorem exists_allocate {n : Nat} (h : n ≤ 2 ^ 57) : ∃ s : Store hash α, allocate n = .ok s := by
  unfold allocate
  rw [if_pos ((fits_iff n).mpr h)]
  exact exists_withShards (h.trans (by decide))

/-! ## Operations with a condition -/

theorem takeIf_of_refused {s : Store hash α} {key : String} {test : α → Bool}
    (h : (s.get? key).any test = false) : s.takeIf key test = (none, s) := by
  unfold takeIf
  cases hget : s.get? key with
  | some slot =>
    have hrefused : test slot = false := by simpa [hget] using h
    exact if_neg (Bool.eq_false_iff.mp hrefused)
  | none => rfl

theorem takeIf_of_passed {s : Store hash α} {key : String} {test : α → Bool} {slot : α}
    (hget : s.get? key = some slot) (h : test slot = true) :
    s.takeIf key test = (some slot, s.erase key) := by
  unfold takeIf
  rw [hget]
  exact if_pos h

/-- The maker runs for an absent key and for no other. -/
theorem run_getOrInsert (s : Store hash α) (key : String) (make : StateM ω α) (world : ω) :
    (s.getOrInsert key make).run world =
      match s.get? key with
      | some slot => (((slot, false), s), world)
      | none =>
        let (slot, world) := make.run world
        (((slot, true), s.insert key slot), world) := by
  unfold getOrInsert
  cases s.get? key <;> rfl

/-! ## Requests -/

/-- What a caller can ask of a store. A maker of slots may read and change a world of its own. -/
inductive Request (ω α : Type) where
  | set (key : String) (slot : α)
  | get (key : String)
  | take (key : String)
  | takeIf (key : String) (test : α → Bool)
  | getOrInsert (key : String) (make : StateM ω α)
  | clear
  | size
  | isEmpty

inductive Answer (α : Type) where
  | done
  | slot (occupant : Option α)
  /-- The occupant of a slot, and whether the request has put it there. -/
  | filled (occupant : α) (inserted : Bool)
  | count (n : Nat)
  | truth (b : Bool)

def serve : Request ω α → StateT (Store hash α) (StateM ω) (Answer α)
  | .set key slot => fun s => pure (.done, s.insert key slot)
  | .get key => fun s => pure (.slot (s.get? key), s)
  | .take key => fun s => pure (.slot (s.take key).1, (s.take key).2)
  | .takeIf key test => fun s => pure (.slot (s.takeIf key test).1, (s.takeIf key test).2)
  | .getOrInsert key make => fun s => do
    let ((occupant, inserted), s) ← s.getOrInsert key make
    pure (.filled occupant inserted, s)
  | .clear => fun s => pure (.done, s.clear)
  | .size => fun s => pure (.count s.size, s)
  | .isEmpty => fun s => pure (.truth s.isEmpty, s)

theorem run_serve_getOrInsert (s : Store hash α) (key : String) (make : StateM ω α) (world : ω) :
    ((serve (.getOrInsert key make)).run s).run world =
      let (((occupant, inserted), s), world) := (s.getOrInsert key make).run world
      ((.filled occupant inserted, s), world) := rfl

/-- A plain map from keys to slots. -/
abbrev Plain (α : Type) := Finmap fun _ : String => α

/-- A plain map answers without a hash and without shards. -/
def Plain.serve : Request ω α → StateT (Plain α) (StateM ω) (Answer α)
  | .set key slot => fun p => pure (.done, p.insert key slot)
  | .get key => fun p => pure (.slot (p.lookup key), p)
  | .take key => fun p => pure (.slot (p.lookup key), p.erase key)
  | .takeIf key test => fun p =>
    if (p.lookup key).any test then pure (.slot (p.lookup key), p.erase key)
    else pure (.slot none, p)
  | .getOrInsert key make => fun p =>
    match p.lookup key with
    | some occupant => pure (.filled occupant false, p)
    | none => do
      let slot ← make
      pure (.filled slot true, p.insert key slot)
  | .clear => fun _ => pure (.done, ∅)
  | .size => fun p => pure (.count p.keys.card, p)
  | .isEmpty => fun p => pure (.truth (p.keys = ∅), p)

/-- The first request is served before the rest, and its answer comes first. -/
theorem run_mapM_cons {κ : Type} {f : Request ω α → StateT κ (StateM ω) (Answer α)}
    {request : Request ω α} {rest : List (Request ω α)} {k k₁ k₂ : κ} {world world₁ world₂ : ω}
    {answer : Answer α} {answers : List (Answer α)}
    (hfirst : ((f request).run k).run world = ((answer, k₁), world₁))
    (hrest : ((rest.mapM f).run k₁).run world₁ = ((answers, k₂), world₂)) :
    (((request :: rest).mapM f).run k).run world = ((answer :: answers, k₂), world₂) := by
  rw [List.mapM_cons]
  change (let r := ((f request).run k).run world
    let r' := ((rest.mapM f).run r.1.2).run r.2
    ((r.1.1 :: r'.1.1, r'.1.2), r'.2)) = _
  rw [hfirst]
  dsimp only
  rw [hrest]

/-! ## Representation -/

/-- The store holds the slots of the plain map, each in the shard of its key. -/
structure Represents (mask : Nat) (s : Store hash α) (p : Plain α) : Prop where
  mask_eq : s.mask = mask
  routed : s.Routed
  get?_eq : ∀ key, s.get? key = p.lookup key

theorem represents_withShards {n : Nat} {s : Store hash α} (h : withShards n = .ok s) :
    Represents s.mask s (∅ : Plain α) where
  mask_eq := rfl
  routed := routed_withShards h
  get?_eq key := by rw [get?_withShards h, Finmap.lookup_empty]

namespace Represents

variable {mask : Nat} {s : Store hash α} {p : Plain α}

theorem insert (h : Represents mask s p) (key : String) (slot : α) :
    Represents mask (s.insert key slot) (p.insert key slot) where
  mask_eq := h.mask_eq
  routed := h.routed.insert key slot
  get?_eq other := by
    rw [get?_insert]
    split
    · rename_i heq
      rw [← heq, Finmap.lookup_insert]
    · rename_i hne
      rw [Finmap.lookup_insert_of_ne p (Ne.symm hne), h.get?_eq]

theorem erase (h : Represents mask s p) (key : String) :
    Represents mask (s.erase key) (p.erase key) where
  mask_eq := h.mask_eq
  routed := h.routed.erase key
  get?_eq other := by
    rw [get?_erase]
    split
    · rename_i heq
      rw [← heq, Finmap.lookup_erase]
    · rename_i hne
      rw [Finmap.lookup_erase_ne (Ne.symm hne), h.get?_eq]

theorem clear (h : Represents mask s p) : Represents mask s.clear ∅ where
  mask_eq := h.mask_eq
  routed := Routed.clear
  get?_eq key := by rw [get?_clear, Finmap.lookup_empty]

/-- Erasing a key that is absent changes nothing. -/
theorem erase_absent (h : Represents mask s p) {key : String} (habsent : p.lookup key = none) :
    Represents mask s (p.erase key) where
  mask_eq := h.mask_eq
  routed := h.routed
  get?_eq other := by
    rw [h.get?_eq]
    by_cases heq : other = key
    · rw [heq, habsent, Finmap.lookup_erase]
    · rw [Finmap.lookup_erase_ne heq]

theorem take (h : Represents mask s p) (key : String) :
    Represents mask (s.take key).2 (p.erase key) := by
  unfold Store.take
  cases hget : s.get? key with
  | some slot => exact h.erase key
  | none => exact h.erase_absent ((h.get?_eq key).symm.trans hget)

/-- Each key of the map is in one shard, and each shard counts its own. -/
theorem size_eq (h : Represents mask s p) : s.size = p.keys.card := by
  have hkeys : p.keys = (s.toList.map (·.1)).toFinset := by
    ext key
    rw [List.mem_toFinset, List.mem_map, Finmap.mem_keys, ← Finmap.lookup_isSome, ← h.get?_eq,
      Option.isSome_iff_exists]
    constructor
    · rintro ⟨slot, hslot⟩
      exact ⟨(key, slot), h.routed.mem_toList.mpr hslot, rfl⟩
    · rintro ⟨⟨_, slot⟩, hmem, rfl⟩
      exact ⟨slot, h.routed.mem_toList.mp hmem⟩
  rw [hkeys, List.toFinset_card_of_nodup h.routed.nodup_keys, List.length_map, length_toList]

theorem isEmpty_eq (h : Represents mask s p) : s.isEmpty = decide (p.keys = ∅) := by
  rw [Bool.eq_iff_iff, isEmpty_iff_size, decide_eq_true_iff, h.size_eq, Finset.card_eq_zero]

theorem serve_takeIf (h : Represents mask s p) (key : String) (test : α → Bool) (world : ω) :
    ∃ answer s' p' world',
      ((Store.serve (.takeIf key test)).run s).run world = ((answer, s'), world') ∧
        ((Plain.serve (.takeIf key test)).run p).run world = ((answer, p'), world') ∧
        Represents mask s' p' := by
  have hget := h.get?_eq key
  cases htest : (p.lookup key).any test with
  | true =>
    obtain ⟨slot, hslot, hpass⟩ := (Option.any_eq_true _ _).mp htest
    refine ⟨.slot (some slot), s.erase key, p.erase key, world, ?_, ?_, h.erase key⟩
    · change ((Answer.slot (s.takeIf key test).1, (s.takeIf key test).2), world) = _
      rw [takeIf_of_passed (hget.trans hslot) hpass]
    · change StateT.run (if _ then _ else _) world = _
      rw [if_pos htest, hslot]
      rfl
  | false =>
    refine ⟨.slot none, s, p, world, ?_, ?_, h⟩
    · change ((Answer.slot (s.takeIf key test).1, (s.takeIf key test).2), world) = _
      rw [takeIf_of_refused (hget ▸ htest)]
    · change StateT.run (if _ then _ else _) world = _
      rw [if_neg (Bool.eq_false_iff.mp htest)]
      rfl

theorem serve_getOrInsert (h : Represents mask s p) (key : String) (make : StateM ω α) (world : ω) :
    ∃ answer s' p' world',
      ((Store.serve (.getOrInsert key make)).run s).run world = ((answer, s'), world') ∧
        ((Plain.serve (.getOrInsert key make)).run p).run world = ((answer, p'), world') ∧
        Represents mask s' p' := by
  have hget := h.get?_eq key
  cases hslot : p.lookup key with
  | some slot =>
    refine ⟨.filled slot false, s, p, world, ?_, ?_, h⟩
    · rw [run_serve_getOrInsert, run_getOrInsert, hget, hslot]
    · change StateT.run (match p.lookup key with | some _ => _ | none => _) world = _
      rw [hslot]
      rfl
  | none =>
    obtain ⟨made, world', hmake⟩ : ∃ made world', make.run world = (made, world') := ⟨_, _, rfl⟩
    refine ⟨.filled made true, s.insert key made, p.insert key made, world', ?_, ?_,
      h.insert key made⟩
    · rw [run_serve_getOrInsert, run_getOrInsert, hget, hslot, hmake]
    · change StateT.run (match p.lookup key with | some _ => _ | none => _) world = _
      rw [hslot]
      change ((Answer.filled (make.run world).1 true, p.insert key (make.run world).1),
        (make.run world).2) = _
      rw [hmake]

/-- A request has the same answer and the same effect on the world from both. -/
theorem serve (h : Represents mask s p) (request : Request ω α) (world : ω) :
    ∃ answer s' p' world',
      ((Store.serve request).run s).run world = ((answer, s'), world') ∧
        ((Plain.serve request).run p).run world = ((answer, p'), world') ∧
        Represents mask s' p' := by
  cases request with
  | set key slot => exact ⟨_, _, _, _, rfl, rfl, h.insert key slot⟩
  | get key =>
    refine ⟨_, _, _, _, rfl, ?_, h⟩
    rw [h.get?_eq key]
    rfl
  | take key =>
    refine ⟨_, _, _, _, rfl, ?_, h.take key⟩
    rw [take_fst, h.get?_eq key]
    rfl
  | takeIf key test => exact h.serve_takeIf key test world
  | getOrInsert key make => exact h.serve_getOrInsert key make world
  | clear => exact ⟨_, _, _, _, rfl, rfl, h.clear⟩
  | size =>
    refine ⟨_, _, _, _, rfl, ?_, h⟩
    rw [h.size_eq]
    rfl
  | isEmpty =>
    refine ⟨_, _, _, _, rfl, ?_, h⟩
    rw [h.isEmpty_eq]
    rfl

/-- So has a run of requests. -/
theorem serveAll (h : Represents mask s p) (requests : List (Request ω α)) (world : ω) :
    ∃ answers s' p' world',
      ((requests.mapM Store.serve).run s).run world = ((answers, s'), world') ∧
        ((requests.mapM Plain.serve).run p).run world = ((answers, p'), world') ∧
        Represents mask s' p' := by
  induction requests generalizing s p world with
  | nil => exact ⟨[], s, p, world, rfl, rfl, h⟩
  | cons request rest ih =>
    obtain ⟨answer, s₁, p₁, world₁, hs₁, hp₁, h₁⟩ := h.serve request world
    obtain ⟨answers, s₂, p₂, world₂, hs₂, hp₂, h₂⟩ := ih h₁ world₁
    refine ⟨answer :: answers, s₂, p₂, world₂, ?_, ?_, h₂⟩
    · exact run_mapM_cons hs₁ hs₂
    · exact run_mapM_cons hp₁ hp₂

end Represents

/-! ## Transparency -/

/-- A maker that counts how often it runs. -/
def counted (made : α) : StateM Nat α := do
  modify (· + 1)
  return made

/-- What a store for `n` shards shows of itself when it holds the slots of a plain map. -/
structure Mirrors (n : Nat) (s : Store hash α) (p : Plain α) : Prop where
  /-- The number of shards is the least power of two that reaches `n`. -/
  shardCount_isLeast : IsLeast {m | max 1 n ≤ m ∧ ∃ k, m = 2 ^ k} s.shardCount
  shardOf_eq : ∀ key, s.shardOf key = (hash key).toNat % s.shardCount
  shardOf_lt : ∀ key, s.shardOf key < s.shards.size
  /-- No shard holds a key of another. -/
  own : ∀ i shard, s.shards[i]? = some shard → ∀ key ∈ shard, s.shardOf key = i
  get?_eq : ∀ key, s.get? key = p.lookup key
  size_eq : s.size = p.keys.card
  /-- An occupant that fails the test stays, and so does all else. -/
  refused : ∀ key test, (s.get? key).any test = false → s.takeIf key test = (none, s)
  /-- The maker runs once for an absent key, and for no other. -/
  made : ∀ key slot calls, ((s.getOrInsert key (counted slot)).run calls).2 =
    if key ∈ p then calls else calls + 1

theorem isLeast_shardsFor (n : Nat) :
    IsLeast {m | max 1 n ≤ m ∧ ∃ k, m = 2 ^ k} (shardsFor n) := by
  refine ⟨⟨le_shardsFor n, shardsFor_eq_two_pow n⟩, ?_⟩
  rintro _ ⟨hle, k, rfl⟩
  exact shardsFor_le ((Nat.le_max_right 1 n).trans hle)

theorem Represents.mirrors {n mask : Nat} {s : Store hash α} {p : Plain α}
    (h : Represents mask s p) (hmask : mask + 1 = shardsFor n) : Mirrors n s p := by
  have hcount : s.shardCount = shardsFor n := by rw [shardCount_eq, h.mask_eq, hmask]
  exact {
    shardCount_isLeast := hcount ▸ isLeast_shardsFor n
    shardOf_eq := shardOf_eq_mod (hcount ▸ shardsFor_eq_two_pow n)
    shardOf_lt := s.shardOf_lt
    own := h.routed
    get?_eq := h.get?_eq
    size_eq := h.size_eq
    refused := fun _ _ => takeIf_of_refused
    made := by
      intro key slot calls
      rw [run_getOrInsert, h.get?_eq]
      cases hslot : p.lookup key with
      | some occupant =>
        rw [if_pos (Finmap.mem_of_lookup_eq_some hslot)]
      | none =>
        rw [if_neg (Finmap.lookup_eq_none.mp hslot)]
        rfl }

/-- A run on a new store gives the answers of a run on the empty plain map, and ends in a store that
mirrors the map. -/
theorem run_withShards {n : Nat} {s : Store hash α} (h : withShards n = .ok s)
    (requests : List (Request ω α)) (world : ω) :
    ∃ answers after plain world',
      ((requests.mapM serve).run s).run world = ((answers, after), world') ∧
        ((requests.mapM Plain.serve).run ∅).run world = ((answers, plain), world') ∧
        Mirrors n after plain := by
  obtain ⟨answers, after, plain, world', hs, hp, hafter⟩ :=
    (represents_withShards h).serveAll requests world
  refine ⟨answers, after, plain, world', hs, hp, hafter.mirrors ?_⟩
  rw [← shardCount_eq, shardCount_withShards h]

/-- Callers cannot tell a store from one plain map. A store that is asked for more shards than a table
can hold is not made. -/
theorem served_as_plain_map (hash : String → UInt64) (n : Nat) (requests : List (Request ω α))
    (world : ω) :
    (2 ^ 57 < n → n ≤ 2 ^ 63 → (allocate n : Except Overflow (Store hash α)) = .error .tableSize) ∧
    (n ≤ 2 ^ 57 →
      ∃ (s after : Store hash α) (answers : List (Answer α)) (plain : Plain α) (world' : ω),
        allocate n = .ok s ∧ Mirrors n s ∅ ∧
          ((requests.mapM serve).run s).run world = ((answers, after), world') ∧
          ((requests.mapM Plain.serve).run ∅).run world = ((answers, plain), world') ∧
          Mirrors n after plain ∧
          ∀ hash' n' (s' : Store hash' α), allocate n' = .ok s' →
            ∃ after', ((requests.mapM serve).run s').run world = ((answers, after'), world')) := by
  refine ⟨fun h _ => allocate_of_too_many h, fun h => ?_⟩
  obtain ⟨s, hs⟩ : ∃ s : Store hash α, allocate n = .ok s := exists_allocate h
  have hnew := withShards_of_allocate hs
  have hstart : Mirrors n s (∅ : Plain α) :=
    (represents_withShards hnew).mirrors (by rw [← shardCount_eq, shardCount_withShards hnew])
  obtain ⟨answers, after, plain, world', hrun, hplain, hafter⟩ :=
    run_withShards hnew requests world
  refine ⟨s, after, answers, plain, world', hs, hstart, hrun, hplain, hafter, ?_⟩
  intro hash' n' s' hs'
  obtain ⟨answers', after', plain', world'', hrun', hplain', _⟩ :=
    run_withShards (withShards_of_allocate hs') requests world
  rw [hplain] at hplain'
  cases hplain'
  exact ⟨after', hrun'⟩

/-- A hash that sends every key to one shard of the 128 makes no difference. -/
theorem served_as_plain_map_of_collisions :
    (100 ≤ 2 ^ 57) ∧ ∃ s after : Store (fun _ => 7) Nat, allocate 100 = .ok s ∧
      s.shardCount = 128 ∧ after.size = 2 ∧
      (([.set "a" 1, .getOrInsert "b" (counted 2), .getOrInsert "b" (counted 3),
          .takeIf "a" (· == 2), .get "a"].mapM serve).run s).run 0 =
        (([.done, .filled 2 true, .filled 2 false, .slot none, .slot (some 1)], after), 1) := by
  refine ⟨by decide, ?_⟩
  obtain ⟨s, after, answers, plain, calls, hs, hstart, hrun, hplain, hafter, _⟩ :=
    (served_as_plain_map (fun _ => 7) 100 [.set "a" 1, .getOrInsert "b" (counted 2),
      .getOrInsert "b" (counted 3), .takeIf "a" (· == 2), .get "a"] 0).2 (by decide)
  have hcount := hstart.shardCount_isLeast.unique (isLeast_shardsFor 100)
  have hanswers : (([.set "a" 1, .getOrInsert "b" (counted 2), .getOrInsert "b" (counted 3),
      .takeIf "a" (· == 2), .get "a"].mapM Plain.serve).run ∅).run 0 =
        (([.done, .filled 2 true, .filled 2 false, .slot none, .slot (some 1)],
          ((∅ : Plain Nat).insert "a" 1).insert "b" 2), 1) := rfl
  rw [hanswers] at hplain
  cases hplain
  refine ⟨s, after, hs, hcount.trans (by decide), ?_, hrun⟩
  rw [hafter.size_eq]
  rfl

/-- There is no store for the largest power of two that a word holds: no table could hold it. -/
theorem no_store_of_most_shards :
    9223372036854775808 ≤ 2 ^ 63 ∧
      ¬ ∃ s : Store (fun _ => 0) Nat, allocate 9223372036854775808 = .ok s := by
  refine ⟨by decide, ?_⟩
  rintro ⟨s, hs⟩
  rw [allocate_of_too_many (by decide)] at hs
  cases hs

end TimedCache.Store
