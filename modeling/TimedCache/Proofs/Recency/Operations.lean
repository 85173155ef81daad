import TimedCache.Proofs.Recency.Arena
import TimedCache.Proofs.Recency.Slots

/-!
The operations of the recency list, on the list of entries that it keeps. Adding an entry to a full
list frees exactly one place, the last one, and the entry found there is handed out if it still had
a slot.
-/

namespace TimedCache

namespace Recency

variable {V : Type} {r : Recency} {c : Contents V} {order : List Spot}

theorem keeps_withCapacity (capacity : Nat) (hempty : ∀ s, c.entry? s = none) :
    (withCapacity capacity).Keeps c [] where
  linked := trivial
  head := rfl
  tail := rfl
  nodup := List.nodup_nil
  occupied i node s hnode := by simp [withCapacity] at hnode
  size_eq := rfl
  free_nodup := List.nodup_nil
  mem_free i := by simp [withCapacity]
  free_alone i node hnode := by simp [withCapacity] at hnode
  fits := by simp [withCapacity, maxPlaces]
  bounded := Or.inr (Nat.zero_le _)
  word i s hmem := by cases hmem
  word_of_not_mem s e he := by
    rw [hempty] at he
    cases he

theorem Keeps.toList_eq (h : r.Keeps c order) : r.toList = order.map (·.2) :=
  h.toChained.toList_eq

theorem Keeps.mem_toList (h : r.Keeps c order) {s : Serial} :
    s ∈ r.toList ↔ ∃ i, (i, s) ∈ order := by
  rw [h.toList_eq, List.mem_map]
  constructor
  · rintro ⟨⟨i, t⟩, hmem, rfl⟩
    exact ⟨i, hmem⟩
  · rintro ⟨i, hmem⟩
    exact ⟨(i, s), hmem, rfl⟩

theorem Keeps.isSome_handle?_iff (h : r.Keeps c order) {s : Serial} :
    (c.handle? s).isSome ↔ s ∈ r.toList := by
  rw [h.mem_toList]
  constructor
  · intro hsome
    by_contra hout
    rw [h.handle?_of_not_mem (not_exists.mp hout)] at hsome
    cases hsome
  · rintro ⟨i, hmem⟩
    obtain ⟨_, _, hhandle⟩ := h.handle?_of_mem hmem
    rw [hhandle]
    rfl

/-! ## Making room -/

theorem evict_of_room (h : r.size < r.capacity) (c : Contents V) (fuel : Nat) :
    r.evict c fuel = (none, r, c) := by
  cases fuel with
  | zero => rfl
  | succ fuel =>
    unfold evict
    rw [if_pos h]

theorem Keeps.makeRoom_of_room (h : r.Keeps c order)
    (hroom : r.capacity = 0 ∨ order.length < r.capacity) : r.makeRoom c = (none, r, c) := by
  unfold makeRoom
  rw [if_neg]
  rw [h.size_eq]
  omega

theorem capacity_released (r : Recency) (i : Nat) : (r.released i).capacity = r.capacity :=
  (detach_frame r i).1

/-- A full list makes room in one round: once the last place is free, there is room. -/
theorem Keeps.makeRoom_of_full {front : List Spot} {i : Nat} {victim : Serial}
    (h : r.Keeps c (front ++ [(i, victim)])) (hpos : 0 < r.capacity)
    (hfull : r.capacity ≤ front.length + 1) :
    r.makeRoom c = (if c.occupies victim then some victim else none, r.released i,
      ((c.unlink victim).vacate victim).2) := by
  have hsize : r.size = front.length + 1 := by
    rw [h.size_eq, List.length_append, List.length_singleton]
  have hlength := h.length_le_capacity
  rw [List.length_append, List.length_singleton] at hlength
  obtain ⟨node, hnode, hentry⟩ := h.node_of_mem (i := i) (s := victim) (by simp)
  have htail : r.tail = some i := by
    rw [h.tail, lastOf_append]
    rfl
  have hroom : (r.released i).size < (r.released i).capacity := by
    rw [capacity_released]
    change r.size - 1 < r.capacity
    omega
  have hfst := Contents.vacate_fst (c.unlink victim) victim
  rw [Contents.occupies_unlink] at hfst
  unfold makeRoom
  rw [if_pos ⟨hpos, by omega⟩, hsize, evict, if_neg (by omega), htail]
  dsimp only
  rw [release_eq hnode hentry]
  dsimp only
  generalize (c.unlink victim).vacate victim = outcome at hfst ⊢
  obtain ⟨_ | _, c'⟩ := outcome
  · rw [← hfst]
    exact evict_of_room hroom c' front.length
  · rw [← hfst]
    rfl

/-! ## Adding an entry -/

theorem Keeps.add_of_linked {before after : List Spot} {i : Nat} {s : Serial}
    (h : r.Keeps c (before ++ (i, s) :: after)) : r.add c s = (none, r.moveToFront i, c) := by
  have hplace := h.resolve_iff.mpr (show (i, s) ∈ before ++ (i, s) :: after by simp)
  unfold add
  rw [hplace]

theorem Keeps.add_of_gone (h : r.Keeps c order) {s : Serial} (hout : ∀ i, (i, s) ∉ order)
    (hgone : c.occupies s = false) : r.add c s = (none, r, c) := by
  unfold add
  rw [h.resolve_eq_none hout]
  simp [hgone]

/-- An entry that holds a slot and is not linked yet is linked after room was made for it. -/
theorem Keeps.add_of_unlinked (h : r.Keeps c order) {s : Serial} (hout : ∀ i, (i, s) ∉ order)
    (hocc : c.occupies s = true) :
    r.add c s = ((r.makeRoom c).1, (r.makeRoom c).2.1.admitted (r.makeRoom c).2.2 s) := by
  unfold add
  rw [h.resolve_eq_none hout]
  simp only [hocc, if_true]
  rfl

/-- The list with an added entry in front. An entry that is not listed yet is only added while it
holds a slot, and then the last one of a full list goes. -/
def refreshed (capacity : Nat) (listed : List Serial) (s : Serial) (occupies : Bool) :
    List Serial :=
  if s ∈ listed then s :: listed.erase s
  else if !occupies then listed
  else if 0 < capacity ∧ capacity ≤ listed.length then s :: listed.dropLast
  else s :: listed

/-- The entry whose slot is emptied for an added one: the last of a full list, if it has one. -/
def victim? (capacity : Nat) (listed : List Serial) (s : Serial) (occupies : Serial → Bool) :
    Option Serial :=
  if s ∉ listed ∧ occupies s = true ∧ 0 < capacity ∧ capacity ≤ listed.length then
    listed.getLast?.filter occupies
  else none

theorem mem_of_mem_refreshed {capacity : Nat} {listed : List Serial} {s t : Serial}
    {occupies : Bool} (h : t ∈ refreshed capacity listed s occupies) :
    t ∈ listed ∨ (t = s ∧ occupies = true) := by
  unfold refreshed at h
  split at h
  · rename_i hs
    rcases List.mem_cons.mp h with rfl | hin
    · exact Or.inl hs
    · exact Or.inl (List.mem_of_mem_erase hin)
  · split at h
    · exact Or.inl h
    · rename_i hocc
      have hocc' : occupies = true := by simpa using hocc
      split at h
      · rcases List.mem_cons.mp h with rfl | hin
        · exact Or.inr ⟨rfl, hocc'⟩
        · exact Or.inl (List.mem_of_mem_dropLast hin)
      · rcases List.mem_cons.mp h with rfl | hin
        · exact Or.inr ⟨rfl, hocc'⟩
        · exact Or.inl hin

theorem nodup_refreshed {listed : List Serial} (h : listed.Nodup) (capacity : Nat) (s : Serial)
    (occupies : Bool) : (refreshed capacity listed s occupies).Nodup := by
  unfold refreshed
  split
  · exact List.nodup_cons.mpr ⟨h.not_mem_erase, h.erase s⟩
  · rename_i hs
    split
    · exact h
    · split
      · refine List.nodup_cons.mpr ⟨?_, h.sublist (List.dropLast_sublist _)⟩
        exact fun hin => hs (List.mem_of_mem_dropLast hin)
      · exact List.nodup_cons.mpr ⟨hs, h⟩

/-- The victim is the last of the list, and leaves it. -/
theorem victim_spec {capacity : Nat} {listed : List Serial} {s victim : Serial}
    {occupies : Serial → Bool} (h : victim? capacity listed s occupies = some victim)
    (hnodup : listed.Nodup) :
    (∃ front, listed = front ++ [victim]) ∧ victim ≠ s ∧ capacity ≤ listed.length ∧
      victim ∉ refreshed capacity listed s (occupies s) := by
  unfold victim? at h
  split at h
  · rename_i hcond
    obtain ⟨hs, hocc, hpos, hfull⟩ := hcond
    obtain ⟨hlast, _⟩ := Option.filter_eq_some_iff.mp h
    obtain ⟨front, rfl⟩ := List.getLast?_eq_some_iff.mp hlast
    have hne : victim ≠ s := by
      rintro rfl
      exact hs (by simp)
    refine ⟨⟨front, rfl⟩, hne, hfull, ?_⟩
    unfold refreshed
    rw [if_neg hs, hocc, if_neg (by simp), if_pos ⟨hpos, hfull⟩, List.dropLast_concat]
    intro hin
    rcases List.mem_cons.mp hin with heq | hin
    · exact hne heq
    · exact (List.nodup_append.mp hnodup).2.2 victim hin victim List.mem_cons_self rfl
  · cases h

theorem Keeps.not_listed (h : r.Keeps c order) {s : Serial} (hs : s ∉ r.toList) (i : Nat) :
    (i, s) ∉ order :=
  fun hmem => hs (h.mem_toList.mpr ⟨i, hmem⟩)

theorem Keeps.nodup_toList (h : r.Keeps c order) : r.toList.Nodup := by
  rw [h.toList_eq]
  exact h.nodup_serials

/-- Moving a listed entry to the front, as the list of entries sees it. -/
theorem Keeps.moveToFront_listed {before after : List Spot} {i : Nat} {s : Serial}
    (h : r.Keeps c (before ++ (i, s) :: after)) :
    (r.moveToFront i).toList = s :: r.toList.erase s := by
  have hnodup := h.nodup_serials
  rw [h.moveToFront.toList_eq, h.toList_eq]
  simp only [List.map_append, List.map_cons] at hnodup ⊢
  have hbefore : s ∉ before.map (·.2) := by
    intro hmem
    exact (List.nodup_append.mp hnodup).2.2 s hmem s List.mem_cons_self rfl
  rw [List.erase_append_right _ hbefore, List.erase_cons_head]

theorem Keeps.makeRoom (h : r.Keeps c order) :
    ∃ order', (r.makeRoom c).2.1.Keeps (r.makeRoom c).2.2 order' ∧
      order'.Sublist order ∧
      (r.makeRoom c).2.1.toList =
        (if 0 < r.capacity ∧ r.capacity ≤ r.toList.length then r.toList.dropLast
          else r.toList) ∧
      (r.makeRoom c).1 =
        (if 0 < r.capacity ∧ r.capacity ≤ r.toList.length then
          r.toList.getLast?.filter c.occupies else none) ∧
      (r.makeRoom c).2.1.capacity = r.capacity ∧
      (r.capacity = 0 ∨ order'.length < r.capacity) := by
  have hlisted := h.toList_eq
  have hlength : r.toList.length = order.length := by rw [hlisted, List.length_map]
  have hbound := h.length_le_capacity
  by_cases hfull : 0 < r.capacity ∧ r.capacity ≤ order.length
  · have hne : order ≠ [] := by
      rintro rfl
      simp only [List.length_nil] at hfull
      omega
    obtain ⟨front, ⟨i, victim⟩, rfl⟩ := (List.eq_nil_or_concat' order).resolve_left hne
    rw [List.length_append, List.length_singleton] at hfull hbound
    rw [h.makeRoom_of_full hfull.1 hfull.2]
    have hkeeps := h.released
    rw [List.append_nil] at hkeeps
    have hkept := hkeeps.of_entries_eq fun t =>
      Contents.entry?_vacate (c.unlink victim) victim t
    refine ⟨front, hkept, List.sublist_append_left _ _, ?_, ?_, capacity_released r i, ?_⟩
    · rw [hlength, List.length_append, List.length_singleton, if_pos hfull, hkept.toList_eq,
        hlisted]
      simp
    · rw [hlength, List.length_append, List.length_singleton, if_pos hfull, hlisted]
      simp [Option.filter]
    · exact Or.inr (by omega)
  · have hroom : r.capacity = 0 ∨ order.length < r.capacity := by omega
    rw [h.makeRoom_of_room hroom]
    refine ⟨order, h, List.Sublist.refl _, ?_, ?_, rfl, hroom⟩
    · rw [hlength, if_neg hfull]
    · rw [hlength, if_neg hfull]

theorem Keeps.add (h : r.Keeps c order) (hkeyed : c.WellKeyed) (s : Serial)
    (hfits : (r.add c s).2.1.Fitting) :
    (∃ order', (r.add c s).2.1.Keeps (r.add c s).2.2 order') ∧
      (r.add c s).2.1.toList = refreshed r.capacity r.toList s (c.occupies s) ∧
      (r.add c s).1 = victim? r.capacity r.toList s c.occupies := by
  unfold refreshed victim?
  by_cases hlisted : s ∈ r.toList
  · obtain ⟨i, hmem⟩ := h.mem_toList.mp hlisted
    obtain ⟨before, after, rfl⟩ := List.append_of_mem hmem
    rw [h.add_of_linked]
    refine ⟨⟨_, h.moveToFront⟩, ?_, ?_⟩
    · rw [if_pos hlisted]
      exact h.moveToFront_listed
    · simp [hlisted]
  · have hout := h.not_listed hlisted
    cases hocc : c.occupies s with
    | false =>
      rw [h.add_of_gone hout hocc]
      refine ⟨⟨order, h⟩, ?_, ?_⟩
      · simp [hlisted]
      · simp
    | true =>
      have hvacated := (makeRoom_vacated hkeyed r).1
      obtain ⟨rest, hkeeps, hsub, hlist, hvictim, hcapacity, hroom⟩ := h.makeRoom
      rw [h.add_of_unlinked hout hocc] at hfits ⊢
      have hmade : ∃ e, Contents.entry? (r.makeRoom c).2.2 s = some e := by
        obtain ⟨e, he, _⟩ := Contents.occupies_iff.mp hocc
        exact hvacated.made he
      obtain ⟨e, he⟩ := hmade
      rw [← hcapacity] at hroom
      obtain ⟨i, hadmitted⟩ :=
        hkeeps.admitted he (fun j hj => hout j (hsub.subset hj)) hroom hfits
      refine ⟨⟨_, hadmitted⟩, ?_, ?_⟩
      · rw [hadmitted.toList_eq, List.map_cons, ← hkeeps.toList_eq, hlist]
        simp only [if_neg hlisted, Bool.not_true, Bool.false_eq_true, if_false]
        split <;> rfl
      · dsimp only
        rw [hvictim]
        simp [hlisted]

/-! ## Removing, using and clearing -/

theorem Keeps.remove (h : r.Keeps c order) (s : Serial) :
    (∃ order', (r.remove c s).2.1.Keeps (r.remove c s).2.2 order' ∧ order'.Sublist order) ∧
      (r.remove c s).2.1.toList = r.toList.erase s ∧
      (r.remove c s).1 = if s ∈ r.toList then some s else none := by
  have hvacated : r.Keeps (c.vacate s).2 order := h.of_entries_eq fun t =>
    Contents.entry?_vacate c s t
  by_cases hlisted : s ∈ r.toList
  · obtain ⟨i, hmem⟩ := h.mem_toList.mp hlisted
    obtain ⟨node, hnode, hentry⟩ := h.node_of_mem hmem
    have hplace := hvacated.resolve_iff.mpr hmem
    have hresult : r.remove c s = (some s, r.released i, (c.vacate s).2.unlink s) := by
      unfold Recency.remove
      dsimp only
      rw [hplace]
      exact release_eq hnode hentry _
    rw [hresult]
    obtain ⟨before, after, rfl⟩ := List.append_of_mem hmem
    have hkeeps := hvacated.released
    have hnodup := h.nodup_serials
    refine ⟨⟨before ++ after, hkeeps, ?_⟩, ?_, by rw [if_pos hlisted]⟩
    · exact List.Sublist.append_left (List.sublist_cons_self _ _) before
    · rw [hkeeps.toList_eq, h.toList_eq]
      simp only [List.map_append, List.map_cons] at hnodup ⊢
      have hbefore : s ∉ before.map (·.2) := by
        intro hin
        exact (List.nodup_append.mp hnodup).2.2 s hin s List.mem_cons_self rfl
      rw [List.erase_append_right _ hbefore, List.erase_cons_head]
  · have hplace := hvacated.resolve_eq_none (h.not_listed hlisted)
    have hresult : r.remove c s = (none, r, (c.vacate s).2) := by
      unfold Recency.remove
      dsimp only
      rw [hplace]
    rw [hresult, if_neg hlisted, List.erase_of_not_mem hlisted]
    exact ⟨⟨order, hvacated, List.Sublist.refl _⟩, rfl, rfl⟩

/-- Using an entry changes the order of the list only. -/
theorem Keeps.hit (h : r.Keeps c order) (place : Handle) :
    ∃ order', (r.hit place).Keeps c order' ∧ order'.Perm order := by
  cases hplace : r.resolve? place with
  | none =>
    refine ⟨order, ?_, List.Perm.refl _⟩
    unfold Recency.hit
    rwa [hplace]
  | some i =>
    obtain ⟨_, _, s, _, _, hmem⟩ := h.resolve?_eq_some.mp hplace
    obtain ⟨before, after, rfl⟩ := List.append_of_mem hmem
    refine ⟨(i, s) :: (before ++ after), ?_, List.perm_middle.symm⟩
    unfold Recency.hit
    rw [hplace]
    exact h.moveToFront

theorem Keeps.hitAll (h : r.Keeps c order) (places : List Handle) :
    ∃ order', (r.hitAll places).Keeps c order' ∧ order'.Perm order := by
  induction places generalizing r order with
  | nil => exact ⟨order, h, List.Perm.refl _⟩
  | cons place rest ih =>
    obtain ⟨between, hbetween, hperm⟩ := h.hit place
    obtain ⟨order', horder', hrest⟩ := ih hbetween
    exact ⟨order', horder', hrest.trans hperm⟩

theorem entry?_unlinkAll (c : Contents V) (linked : List Serial) (s : Serial) :
    Contents.entry? (linked.foldl Contents.unlink c) s =
      if s ∈ linked then (c.entry? s).map (·.unlink) else c.entry? s := by
  induction linked generalizing c with
  | nil => simp
  | cons t rest ih =>
    rw [List.foldl_cons, ih]
    unfold Contents.unlink
    rw [Contents.entry?_modify]
    by_cases hts : t = s
    · subst hts
      cases c.entry? t <;> simp [Entry.unlink]
    · simp [hts, Ne.symm hts]

theorem size_nodes_clear (r : Recency) (c : Contents V) :
    (r.clear c).1.nodes.size = r.nodes.size := by
  unfold Recency.clear
  exact Array.size_map

/-- A cleared list has the places it had, all of them free and off the chain. -/
theorem vacant_of_clear {i : Nat} {node : Node} (h : (r.clear c).1.nodes[i]? = some node) :
    (∃ old, r.nodes[i]? = some old) ∧ node.entry = none ∧ node.prev = none ∧ node.next = none := by
  unfold Recency.clear at h
  rw [Array.getElem?_map, Option.map_eq_some_iff] at h
  obtain ⟨old, hold, rfl⟩ := h
  exact ⟨⟨old, hold⟩, rfl, rfl, rfl⟩

theorem mem_occupied {i : Nat} :
    i ∈ ((List.range r.nodes.size).filter fun i => (r.nodes[i]?.bind (·.entry)).isSome) ↔
      ∃ node s, r.nodes[i]? = some node ∧ node.entry = some s := by
  rw [List.mem_filter, List.mem_range]
  constructor
  · rintro ⟨_, hsome⟩
    obtain ⟨s, hs⟩ := Option.isSome_iff_exists.mp hsome
    obtain ⟨node, hnode, hentry⟩ := Option.bind_eq_some_iff.mp hs
    exact ⟨node, s, hnode, hentry⟩
  · rintro ⟨node, s, hnode, hentry⟩
    refine ⟨(Array.getElem?_eq_some_iff.mp hnode).1, ?_⟩
    rw [hnode, Option.bind_some, hentry]
    rfl

/-- A handle can name every place of an arena that has not outgrown its index. -/
theorem map_index_of_lt {places : List Nat} (h : ∀ i ∈ places, i < maxPlaces) :
    places.map (fun i => (UInt32.ofNat i).toNat) = places :=
  (List.map_congr_left fun i hi => toNat_index (h i hi)).trans (List.map_id places)

theorem Keeps.clear (h : r.Keeps c order) : (r.clear c).1.Keeps (r.clear c).2 [] := by
  have hfree : (r.clear c).1.free = ((List.range r.nodes.size).filter fun i =>
      (r.nodes[i]?.bind (·.entry)).isSome).reverse ++ r.free := by
    refine congrArg (fun places => List.reverse places ++ r.free) (map_index_of_lt fun i hi => ?_)
    exact Nat.lt_trans (List.mem_range.mp (List.mem_filter.mp hi).1) h.fits
  refine {
    toChained := ⟨trivial, rfl, rfl, List.nodup_nil⟩, size_eq := rfl
    occupied := ?occupied, free_nodup := ?free_nodup, mem_free := ?mem_free
    free_alone := ?free_alone, fits := ?fits, bounded := ?bounded, word := ?word
    word_of_not_mem := ?word_of_not_mem }
  case occupied =>
    intro i node s hnode hentry
    rw [(vacant_of_clear hnode).2.1] at hentry
    cases hentry
  case free_nodup =>
    rw [hfree]
    refine List.nodup_append.mpr ⟨?_, h.free_nodup, ?_⟩
    · exact List.nodup_reverse.mpr (List.nodup_range.filter _)
    · rintro i hi j hj rfl
      obtain ⟨node, s, hnode, hentry⟩ := mem_occupied.mp (List.mem_reverse.mp hi)
      obtain ⟨node', hnode', hnone⟩ := (h.mem_free i).mp hj
      rw [hnode] at hnode'
      cases hnode'
      rw [hnone] at hentry
      cases hentry
  case mem_free =>
    intro i
    rw [hfree, List.mem_append, List.mem_reverse, mem_occupied, h.mem_free]
    constructor
    · intro hin
      have hlt : i < r.nodes.size := by
        rcases hin with ⟨node, _, hnode, _⟩ | ⟨node, hnode, _⟩
        · exact (Array.getElem?_eq_some_iff.mp hnode).1
        · exact (Array.getElem?_eq_some_iff.mp hnode).1
      rw [← size_nodes_clear r c] at hlt
      have hnode := Array.getElem?_eq_getElem hlt
      exact ⟨_, hnode, (vacant_of_clear hnode).2.1⟩
    · rintro ⟨node, hnode, _⟩
      obtain ⟨⟨old, hold⟩, _⟩ := vacant_of_clear hnode
      cases hentry : old.entry with
      | none => exact Or.inr ⟨old, hold, hentry⟩
      | some s => exact Or.inl ⟨old, s, hold, hentry⟩
  case free_alone =>
    intro i node hnode _
    exact (vacant_of_clear hnode).2.2
  case fits =>
    rw [size_nodes_clear]
    exact h.fits
  case bounded =>
    rw [size_nodes_clear]
    exact h.bounded
  case word =>
    intro i s hmem
    cases hmem
  case word_of_not_mem =>
    intro s e he _
    unfold Recency.clear at he
    rw [entry?_unlinkAll] at he
    split at he
    · obtain ⟨old, _, rfl⟩ := Option.map_eq_some_iff.mp he
      exact old.node_unlink
    · rename_i hs
      apply h.word_of_not_mem s e he
      intro i hmem
      obtain ⟨node, hnode, hentry⟩ := h.node_of_mem hmem
      apply hs
      rw [List.mem_filterMap]
      exact ⟨node, Array.mem_toList_iff.mpr (Array.mem_of_getElem? hnode), hentry⟩

/-! ## The arena only grows -/

/-- The capacity stays and no place of the arena is given up. -/
structure Grows (r r' : Recency) : Prop where
  capacity : r'.capacity = r.capacity
  nodes_size : r.nodes.size ≤ r'.nodes.size

namespace Grows

theorem refl (r : Recency) : Grows r r := ⟨rfl, Nat.le_refl _⟩

theorem trans {r r' r'' : Recency} (hfirst : Grows r r') (hsecond : Grows r' r'') : Grows r r'' :=
  ⟨hsecond.capacity.trans hfirst.capacity, hfirst.nodes_size.trans hsecond.nodes_size⟩

theorem fitting {r r' : Recency} (h : Grows r r') (hfits : r'.Fitting) : r.Fitting := by
  have hcapacity := h.capacity
  have hsize := h.nodes_size
  unfold Fitting at hfits ⊢
  omega

end Grows

theorem grows_release (r : Recency) (c : Contents V) (i : Nat) :
    Grows r (r.release c i).2.1 := by
  obtain ⟨hcapacity, _, _, hnodes⟩ := detach_frame r i
  unfold release
  dsimp only
  split
  · exact ⟨hcapacity, Nat.le_of_eq hnodes.symm⟩
  · refine ⟨hcapacity, Nat.le_of_eq ?_⟩
    dsimp only
    rw [Array.size_modify, hnodes]

theorem grows_evict (r : Recency) (c : Contents V) (fuel : Nat) :
    Grows r (r.evict c fuel).2.1 := by
  induction fuel generalizing r c with
  | zero => exact .refl r
  | succ fuel ih =>
    unfold evict
    split
    · exact .refl r
    · split
      · exact .refl r
      · rename_i i _
        have hrelease := grows_release r c i
        generalize r.release c i = result at hrelease ⊢
        obtain ⟨_ | s, r', c'⟩ := result
        · exact hrelease
        · dsimp only at hrelease ⊢
          generalize c'.vacate s = outcome
          obtain ⟨_ | _, c''⟩ := outcome
          · exact hrelease.trans (ih r' c'')
          · exact hrelease

theorem grows_makeRoom (r : Recency) (c : Contents V) : Grows r (r.makeRoom c).2.1 := by
  unfold makeRoom
  split
  · exact grows_evict r c r.size
  · exact .refl r

theorem grows_allocate (r : Recency) (s : Serial) : Grows r (r.allocate s).2 := by
  unfold allocate
  split
  · exact ⟨rfl, by simp⟩
  · exact ⟨rfl, by simp⟩

theorem grows_attachFront (r : Recency) (i : Nat) : Grows r (r.attachFront i) := by
  obtain ⟨hcapacity, _, _, hnodes⟩ := attachFront_frame r i
  exact ⟨hcapacity, Nat.le_of_eq hnodes.symm⟩

theorem grows_moveToFront (r : Recency) (i : Nat) : Grows r (r.moveToFront i) := by
  obtain ⟨hcapacity, _, _, hnodes⟩ := moveToFront_frame r i
  exact ⟨hcapacity, Nat.le_of_eq hnodes.symm⟩

theorem grows_add (r : Recency) (c : Contents V) (s : Serial) : Grows r (r.add c s).2.1 := by
  unfold add
  split
  · exact grows_moveToFront r _
  · split
    · have hroom := grows_makeRoom r c
      generalize r.makeRoom c = result at hroom ⊢
      obtain ⟨evicted, r', c'⟩ := result
      have hlinked := (grows_allocate r' s).trans (grows_attachFront _ (r'.allocate s).1.index.toNat)
      exact hroom.trans ⟨hlinked.capacity, hlinked.nodes_size⟩
    · exact .refl r

theorem grows_remove (r : Recency) (c : Contents V) (s : Serial) :
    Grows r (r.remove c s).2.1 := by
  unfold remove
  dsimp only
  split
  · exact grows_release r _ _
  · exact .refl r

theorem grows_hitAll (r : Recency) (places : List Handle) : Grows r (r.hitAll places) := by
  induction places generalizing r with
  | nil => exact .refl r
  | cons place rest ih =>
    refine Grows.trans ?_ (ih (r.hit place))
    unfold hit
    split
    · exact grows_moveToFront r _
    · exact .refl r

theorem grows_clear (r : Recency) (c : Contents V) : Grows r (r.clear c).1 := by
  unfold clear
  exact ⟨rfl, Nat.le_of_eq (size_nodes_clear r c).symm⟩

end Recency

end TimedCache
