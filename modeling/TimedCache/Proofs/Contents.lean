import TimedCache.Contents
import TimedCache.Proofs.Store

/-!
Laws of the contents. An operation either changes entries or changes slots, and the key of an entry
never changes. As long as every slot holds an entry made for its key, a slot is emptied by the
serial of its occupant alone.
-/

namespace TimedCache

namespace Entry

variable {V : Type}

@[simp] theorem key_link (e : Entry V) (h : Handle) : (e.link h).key = e.key := by
  unfold link
  rfl

@[simp] theorem value_link (e : Entry V) (h : Handle) : (e.link h).value = e.value := by
  unfold link
  rfl

@[simp] theorem expireAt_link (e : Entry V) (h : Handle) : (e.link h).expireAt = e.expireAt := by
  unfold link
  rfl

@[simp] theorem node_link (e : Entry V) (h : Handle) : (e.link h).node = h.toWord := by
  unfold link
  rfl

@[simp] theorem key_unlink (e : Entry V) : e.unlink.key = e.key := by
  unfold unlink
  rfl

@[simp] theorem value_unlink (e : Entry V) : e.unlink.value = e.value := by
  unfold unlink
  rfl

@[simp] theorem expireAt_unlink (e : Entry V) : e.unlink.expireAt = e.expireAt := by
  unfold unlink
  rfl

@[simp] theorem node_unlink (e : Entry V) : e.unlink.node = Handle.unlinked := by
  unfold unlink
  rfl

@[simp] theorem key_overwrite (e : Entry V) (value : V) (expireAt : Option Nat) :
    (e.overwrite value expireAt).key = e.key := by
  unfold overwrite
  rfl

@[simp] theorem node_overwrite (e : Entry V) (value : V) (expireAt : Option Nat) :
    (e.overwrite value expireAt).node = e.node := by
  unfold overwrite
  rfl

end Entry

namespace Contents

variable {V : Type}

theorem takeKey_eq (c : Contents V) (key : String) :
    c.takeKey key = ((c.slots.take key).1, { c with slots := (c.slots.take key).2 }) := by
  unfold takeKey
  generalize c.slots.take key = result
  obtain ⟨taken, slots⟩ := result
  rfl

theorem vacate_eq {c : Contents V} {s : Serial} {e : Entry V} (h : c.entry? s = some e) :
    c.vacate s = ((c.slots.takeIf e.key (· == s)).1.isSome,
      { c with slots := (c.slots.takeIf e.key (· == s)).2 }) := by
  unfold vacate
  rw [h]

theorem vacate_eq_of_none {c : Contents V} {s : Serial} (h : c.entry? s = none) :
    c.vacate s = (false, c) := by
  unfold vacate
  rw [h]

/-! ## Entries -/

theorem entry?_create (c : Contents V) (key : String) (value : V) (expireAt : Option Nat)
    (s : Serial) :
    entry? (c.create key value expireAt).2 s =
      if s = c.entries.size then some { key, value, expireAt } else c.entry? s := by
  unfold create entry?
  rw [Array.getElem?_push]

theorem entry?_modify (c : Contents V) (s t : Serial) (change : Entry V → Entry V) :
    entry? (c.modify s change) t = if s = t then (c.entry? t).map change else c.entry? t := by
  unfold modify entry?
  rw [Array.getElem?_modify]

@[simp] theorem entries_place (c : Contents V) (s : Serial) :
    (c.place s).entries = c.entries := by
  unfold place
  split <;> rfl

@[simp] theorem entries_vacate (c : Contents V) (s : Serial) :
    (c.vacate s).2.entries = c.entries := by
  cases he : c.entry? s with
  | none => rw [vacate_eq_of_none he]
  | some e => rw [vacate_eq he]

@[simp] theorem entries_takeKey (c : Contents V) (key : String) :
    (c.takeKey key).2.entries = c.entries := by
  rw [takeKey_eq]

@[simp] theorem entry?_place (c : Contents V) (s t : Serial) :
    entry? (c.place s) t = c.entry? t := by
  unfold entry?
  rw [entries_place]

@[simp] theorem entry?_vacate (c : Contents V) (s t : Serial) :
    entry? (c.vacate s).2 t = c.entry? t := by
  unfold entry?
  rw [entries_vacate]

@[simp] theorem entry?_takeKey (c : Contents V) (key : String) (s : Serial) :
    entry? (c.takeKey key).2 s = c.entry? s := by
  unfold entry?
  rw [entries_takeKey]

@[simp] theorem entry?_clearSlots (c : Contents V) (s : Serial) :
    c.clearSlots.entry? s = c.entry? s := by
  unfold entry? clearSlots
  rfl

theorem lt_size_of_made {c : Contents V} {s : Serial} {e : Entry V} (h : c.entry? s = some e) :
    s < c.entries.size := by
  obtain ⟨hlt, _⟩ := Array.getElem?_eq_some_iff.mp h
  exact hlt

@[simp] theorem size_entries_modify (c : Contents V) (s : Serial) (change : Entry V → Entry V) :
    (c.modify s change).entries.size = c.entries.size := by
  simp [modify]

@[simp] theorem size_entries_create (c : Contents V) (key : String) (value : V)
    (expireAt : Option Nat) :
    (c.create key value expireAt).2.entries.size = c.entries.size + 1 := by
  simp [create]


/-! ## Slots -/

@[simp] theorem occupant?_create (c : Contents V) (key other : String) (value : V)
    (expireAt : Option Nat) :
    (c.create key value expireAt).2.occupant? other = c.occupant? other := rfl

@[simp] theorem occupant?_modify (c : Contents V) (s : Serial) (change : Entry V → Entry V)
    (key : String) : (c.modify s change).occupant? key = c.occupant? key := rfl

theorem occupant?_place {c : Contents V} {s : Serial} {e : Entry V} (h : c.entry? s = some e)
    (key : String) :
    (c.place s).occupant? key = if e.key = key then some s else c.occupant? key := by
  unfold place
  rw [h]
  exact Store.get?_insert c.slots e.key key s

theorem takeKey_fst (c : Contents V) (key : String) : (c.takeKey key).1 = c.occupant? key := by
  rw [takeKey_eq]
  exact Store.take_fst c.slots key

theorem occupant?_takeKey (c : Contents V) (key other : String) :
    (c.takeKey key).2.occupant? other = if key = other then none else c.occupant? other := by
  rw [takeKey_eq]
  exact Store.get?_take c.slots key other

theorem takeKey_of_vacant {c : Contents V} {key : String} (h : c.occupant? key = none) :
    (c.takeKey key).2 = c := by
  have hnone : c.slots.get? key = none := h
  rw [takeKey_eq]
  unfold Store.take
  rw [hnone]

@[simp] theorem occupant?_clearSlots (c : Contents V) (key : String) :
    c.clearSlots.occupant? key = none :=
  Store.get?_clear c.slots key

theorem occupies_iff {c : Contents V} {s : Serial} :
    c.occupies s = true ↔ ∃ e, c.entry? s = some e ∧ c.occupant? e.key = some s := by
  unfold occupies
  split
  · rename_i e he
    simp [he]
  · rename_i hnone
    simp [hnone]

theorem vacate_fst (c : Contents V) (s : Serial) : (c.vacate s).1 = c.occupies s := by
  unfold occupies
  split
  · rename_i e he
    rw [vacate_eq he, Store.takeIf_fst]
    change ((c.occupant? e.key).filter (· == s)).isSome = (c.occupant? e.key == some s)
    cases c.occupant? e.key with
    | none => rfl
    | some t =>
      by_cases heq : t = s
      · subst heq
        simp
      · simp [Option.filter_some, heq]
  · rename_i hnone
    rw [vacate_eq_of_none hnone]

/-! ## Well-keyed contents -/

/-- Every slot holds an entry made for its key, in the shard of the key. -/
structure WellKeyed (c : Contents V) : Prop where
  routed : c.slots.Routed
  keyed : ∀ key s, c.occupant? key = some s → ∃ e, c.entry? s = some e ∧ e.key = key

namespace WellKeyed

variable {c : Contents V}

theorem occupant_lt (h : c.WellKeyed) {key : String} {s : Serial}
    (hs : c.occupant? key = some s) : s < c.entries.size := by
  obtain ⟨_, he, _⟩ := h.keyed key s hs
  exact lt_size_of_made he

/-- An entry holds one slot at most. -/
theorem key_unique (h : c.WellKeyed) {key other : String} {s : Serial}
    (hkey : c.occupant? key = some s) (hother : c.occupant? other = some s) : key = other := by
  obtain ⟨e, he, rfl⟩ := h.keyed key s hkey
  obtain ⟨e', he', rfl⟩ := h.keyed other s hother
  rw [he] at he'
  cases he'
  rfl

theorem occupies_iff_exists (h : c.WellKeyed) {s : Serial} :
    c.occupies s = true ↔ ∃ key, c.occupant? key = some s := by
  rw [occupies_iff]
  constructor
  · rintro ⟨e, _, hs⟩
    exact ⟨e.key, hs⟩
  · rintro ⟨key, hs⟩
    obtain ⟨e, he, rfl⟩ := h.keyed key s hs
    exact ⟨e, he, hs⟩

theorem occupies_of_occupant? (h : c.WellKeyed) {key : String} {s : Serial}
    (hs : c.occupant? key = some s) : c.occupies s = true :=
  h.occupies_iff_exists.mpr ⟨key, hs⟩

theorem occupant?_vacate (h : c.WellKeyed) (s : Serial) (key : String) :
    (c.vacate s).2.occupant? key =
      if c.occupant? key = some s then none else c.occupant? key := by
  cases he : c.entry? s with
  | none =>
    rw [vacate_eq_of_none he]
    split
    · rename_i hs
      obtain ⟨e, he', _⟩ := h.keyed key s hs
      rw [he] at he'
      cases he'
    · rfl
  | some e =>
    rw [vacate_eq he]
    change (c.slots.takeIf e.key (· == s)).2.get? key = _
    rw [Store.get?_takeIf]
    change (if e.key = key ∧ (c.occupant? e.key).any (· == s) = true then none
      else c.occupant? key) = _
    by_cases hs : c.occupant? key = some s
    · obtain ⟨e', he', rfl⟩ := h.keyed key s hs
      rw [he] at he'
      cases he'
      simp [hs]
    · rw [if_neg hs, if_neg]
      rintro ⟨rfl, hany⟩
      cases ht : c.occupant? e.key with
      | none => simp [ht] at hany
      | some t =>
        rw [ht, Option.any_some, beq_iff_eq] at hany
        rw [ht, hany] at hs
        exact hs rfl

theorem vacate (h : c.WellKeyed) (s : Serial) : (c.vacate s).2.WellKeyed where
  routed := by
    cases he : c.entry? s with
    | none =>
      rw [vacate_eq_of_none he]
      exact h.routed
    | some e =>
      rw [vacate_eq he]
      exact h.routed.takeIf _ _
  keyed key t ht := by
    rw [h.occupant?_vacate] at ht
    split at ht
    · cases ht
    · simpa using h.keyed key t ht

theorem takeKey (h : c.WellKeyed) (key : String) : (c.takeKey key).2.WellKeyed where
  routed := by
    rw [takeKey_eq]
    exact h.routed.take key
  keyed other t ht := by
    rw [occupant?_takeKey] at ht
    split at ht
    · cases ht
    · exact h.keyed other t ht

theorem clearSlots : c.clearSlots.WellKeyed where
  routed := Store.Routed.clear
  keyed key s hs := by simp at hs

theorem modify (h : c.WellKeyed) (s : Serial) (change : Entry V → Entry V)
    (hkey : ∀ e, (change e).key = e.key) : (c.modify s change).WellKeyed where
  routed := h.routed
  keyed key t ht := by
    obtain ⟨e, he, rfl⟩ := h.keyed key t ht
    rw [entry?_modify, he]
    split
    · exact ⟨change e, rfl, hkey e⟩
    · exact ⟨e, rfl, rfl⟩

theorem create (h : c.WellKeyed) (key : String) (value : V) (expireAt : Option Nat) :
    (c.create key value expireAt).2.WellKeyed where
  routed := h.routed
  keyed other t ht := by
    obtain ⟨e, he, rfl⟩ := h.keyed other t ht
    have hlt := lt_size_of_made he
    rw [entry?_create, if_neg (Nat.ne_of_lt hlt)]
    exact ⟨e, he, rfl⟩

theorem place (h : c.WellKeyed) (s : Serial) : (c.place s).WellKeyed := by
  cases he : c.entry? s with
  | none =>
    unfold Contents.place
    rw [he]
    exact h
  | some e =>
    constructor
    · unfold Contents.place
      rw [he]
      exact h.routed.insert e.key s
    · intro key t ht
      rw [occupant?_place he] at ht
      rw [entry?_place]
      split at ht
      · rename_i hkey
        cases ht
        exact ⟨e, he, hkey⟩
      · exact h.keyed key t ht

theorem link (h : c.WellKeyed) (s : Serial) (place : Handle) : (c.link s place).WellKeyed := by
  unfold Contents.link
  exact h.modify s (·.link place) fun e => e.key_link place

theorem unlink (h : c.WellKeyed) (s : Serial) : (c.unlink s).WellKeyed := by
  unfold Contents.unlink
  exact h.modify s (·.unlink) fun e => e.key_unlink

end WellKeyed

theorem withShards_eq_ok {n : Nat} {c : Contents V} (h : withShards n = .ok c) :
    ∃ slots, Store.withShards n = .ok slots ∧ c = { entries := #[], slots } := by
  unfold withShards at h
  generalize Store.withShards n = made at h ⊢
  cases made with
  | error cause => cases h
  | ok slots => exact ⟨slots, rfl, (Except.ok.inj h).symm⟩

theorem wellKeyed_withShards {n : Nat} {c : Contents V} (h : withShards n = .ok c) :
    c.WellKeyed := by
  obtain ⟨slots, hslots, rfl⟩ := withShards_eq_ok h
  constructor
  · exact Store.routed_withShards hslots
  · intro key s hs
    have hnone := Store.get?_withShards hslots key
    rw [occupant?, hnone] at hs
    cases hs

theorem entry?_withShards {n : Nat} {c : Contents V} (h : withShards n = .ok c) (s : Serial) :
    c.entry? s = none := by
  obtain ⟨slots, _, rfl⟩ := withShards_eq_ok h
  unfold entry?
  exact Array.getElem?_empty

/-! ## What readers see of an entry -/

/-- The key, the value and the stamp of an entry: all but its place in the recency list. -/
def shown? (c : Contents V) (s : Serial) : Option (String × V × Option Nat) :=
  (c.entry? s).map fun e => (e.key, e.value, e.expireAt)

@[simp] theorem shown?_vacate (c : Contents V) (s t : Serial) :
    (c.vacate s).2.shown? t = c.shown? t := by
  simp [shown?]

@[simp] theorem shown?_place (c : Contents V) (s t : Serial) :
    (c.place s).shown? t = c.shown? t := by
  simp [shown?]

@[simp] theorem shown?_takeKey (c : Contents V) (key : String) (s : Serial) :
    (c.takeKey key).2.shown? s = c.shown? s := by
  simp [shown?]

@[simp] theorem shown?_clearSlots (c : Contents V) (s : Serial) :
    c.clearSlots.shown? s = c.shown? s := by
  simp [shown?]

@[simp] theorem shown?_link (c : Contents V) (s t : Serial) (h : Handle) :
    (c.link s h).shown? t = c.shown? t := by
  unfold shown? link
  rw [entry?_modify]
  split
  · cases c.entry? t <;> simp
  · rfl

@[simp] theorem shown?_unlink (c : Contents V) (s t : Serial) :
    (c.unlink s).shown? t = c.shown? t := by
  unfold shown? unlink
  rw [entry?_modify]
  split
  · cases c.entry? t <;> simp
  · rfl

@[simp] theorem occupant?_link (c : Contents V) (s : Serial) (h : Handle) (key : String) :
    (c.link s h).occupant? key = c.occupant? key := by
  unfold link
  rfl

@[simp] theorem occupant?_unlink (c : Contents V) (s : Serial) (key : String) :
    (c.unlink s).occupant? key = c.occupant? key := by
  unfold unlink
  rfl

theorem handle?_link {c : Contents V} {s : Serial} {e : Entry V} (he : c.entry? s = some e)
    (h : Handle) : (c.link s h).handle? s = Handle.ofWord? h.toWord := by
  unfold handle? link
  rw [entry?_modify, if_pos rfl, he, Option.map_some, Option.bind_some]
  unfold Entry.handle?
  rw [Entry.node_link]

theorem handle?_unlink (c : Contents V) (s : Serial) : (c.unlink s).handle? s = none := by
  unfold handle? unlink
  rw [entry?_modify, if_pos rfl]
  cases c.entry? s with
  | none => rfl
  | some e =>
    rw [Option.map_some, Option.bind_some]
    unfold Entry.handle?
    rw [Entry.node_unlink]
    exact if_pos rfl

theorem occupies_congr {c c' : Contents V} {s : Serial} (hshown : c'.shown? s = c.shown? s)
    (hslots : ∀ key, c'.occupant? key = c.occupant? key) : c'.occupies s = c.occupies s := by
  unfold shown? at hshown
  unfold occupies
  cases he : c.entry? s with
  | none =>
    rw [he, Option.map_none, Option.map_eq_none_iff] at hshown
    rw [hshown]
  | some e =>
    rw [he, Option.map_some, Option.map_eq_some_iff] at hshown
    obtain ⟨e', he', hfields⟩ := hshown
    have hkey : e'.key = e.key := congrArg (·.1) hfields
    rw [he']
    dsimp only
    rw [hkey, hslots]

@[simp] theorem occupies_unlink (c : Contents V) (s t : Serial) :
    (c.unlink s).occupies t = c.occupies t :=
  occupies_congr (shown?_unlink c s t) (occupant?_unlink c s)

/-! ## The number of occupied slots -/

/-- The slots hold different entries, as many as there are occupied slots. -/
theorem WellKeyed.exists_holders {c : Contents V} (h : c.WellKeyed) :
    ∃ held : List Serial, held.Nodup ∧ held.length = c.size ∧
      ∀ s, s ∈ held ↔ ∃ key, c.occupant? key = some s := by
  refine ⟨c.slots.toList.map (·.2), ?_, ?_, fun s => ?_⟩
  · apply List.Nodup.map_on _ (h.routed.nodup_keys.of_map _)
    rintro ⟨key, s⟩ hleft ⟨other, t⟩ hright rfl
    have hkey := h.routed.mem_toList.mp hleft
    have hother := h.routed.mem_toList.mp hright
    rw [h.key_unique hkey hother]
  · rw [List.length_map, Store.length_toList]
    rfl
  · simp only [List.mem_map, Prod.exists, exists_eq_right, h.routed.mem_toList]
    rfl

theorem WellKeyed.size_le {c : Contents V} (h : c.WellKeyed) {held : List Serial}
    (hheld : ∀ key s, c.occupant? key = some s → s ∈ held) : c.size ≤ held.length := by
  obtain ⟨holders, hnodup, hlength, hmem⟩ := h.exists_holders
  have hsub : holders ⊆ held := by
    intro s hs
    obtain ⟨key, hslot⟩ := (hmem s).mp hs
    exact hheld key s hslot
  exact hlength ▸ (List.subperm_of_subset hnodup hsub).length_le

/-- Entries without repetition that are just those with a slot are as many as the slots. -/
theorem WellKeyed.size_eq {c : Contents V} (h : c.WellKeyed) {held : List Serial}
    (hnodup : held.Nodup) (hheld : ∀ s, s ∈ held ↔ ∃ key, c.occupant? key = some s) :
    c.size = held.length := by
  obtain ⟨holders, hnodup', hlength, hmem⟩ := h.exists_holders
  have hperm : holders.Perm held :=
    (List.perm_ext_iff_of_nodup hnodup' hnodup).mpr fun s => (hmem s).trans (hheld s).symm
  exact hlength.symm.trans hperm.length_eq

end Contents

end TimedCache
