import TimedCache.Proofs.Recency.Arena

/-!
An unbounded list that outgrows the handles. Past the last place that a handle can name the count of
places starts over, so the next entry gets the handle of the first one, and whoever asks for its
removal has the first one removed. And in the last place the last generation has the word that stands
for "not linked".
-/

namespace TimedCache

namespace Recency

variable {V : Type} {r : Recency} {s t : Serial} {i n : Nat} {generation : UInt32}

/-- Where there is no bound, nobody gives way to an entry that is linked. -/
theorem add_of_unbounded {c : Contents V} (hcapacity : r.capacity = 0)
    (hoccupies : c.occupies s = true) (hunlinked : c.handle? s = none) :
    r.add c s = (none, r.admitted c s) := by
  unfold add makeRoom
  rw [hunlinked, hcapacity]
  simp only [Option.bind_none, hoccupies, if_true, Nat.lt_irrefl, false_and, if_false]
  rfl

/-- Whoever the handle of an entry leads to is released in its place. -/
theorem remove_of_place {c : Contents V} {place : Handle}
    (hplace : (c.vacate s).2.handle? s = some place)
    (hcore : (r.nodes[place.index.toNat]?).map core = some (some t, place.generation)) :
    r.remove c s = (some t, r.released place.index.toNat, (c.vacate s).2.unlink t) := by
  obtain ⟨node, hnode, hsame⟩ := Option.map_eq_some_iff.mp hcore
  obtain ⟨hentry, hgeneration⟩ := Prod.ext_iff.mp hsame
  have hresolve : r.resolve? place = some place.index.toNat := by
    unfold resolve?
    rw [hnode]
    exact if_pos ⟨hgeneration, Option.isSome_iff_exists.mpr ⟨t, hentry⟩⟩
  unfold remove
  dsimp only
  rw [hplace, Option.bind_some, hresolve]
  exact release_eq hnode hentry _

/-- No handle but those of the last generation may be taken for that of an entry that is not linked. -/
theorem ofWord?_of_early (place : Handle) (h : place.generation.toNat + 1 < maxPlaces) :
    Handle.ofWord? place.toWord = some place := by
  refine Handle.ofWord?_toWord place fun heq => ?_
  have hindex := place.index.toNat_lt
  have hword : place.generation.toNat * 4294967296 + place.index.toNat = 18446744073709551615 :=
    place.toNat_toWord.symm.trans (congrArg UInt64.toNat heq)
  unfold maxPlaces at h
  omega

theorem mem_walk {fuel : Nat} {start : Option Nat} (h : s ∈ r.walk fuel start) :
    ∃ (i : Nat) (node : Node), r.nodes[i]? = some node ∧ node.entry = some s := by
  induction fuel generalizing start with
  | zero => cases h
  | succ fuel ih =>
    cases start with
    | none => cases h
    | some i =>
      unfold walk at h
      cases hnode : r.nodes[i]? with
      | none =>
        rw [hnode] at h
        cases h
      | some node =>
        rw [hnode] at h
        rcases List.mem_append.mp h with hhere | hlater
        · exact ⟨i, node, hnode, Option.mem_toList.mp hhere⟩
        · exact ih hlater

/-! ## One place after the other -/

/-- The entries were linked one after the other, and none of them was ever released. -/
structure Filled (r : Recency) (n : Nat) : Prop where
  capacity : r.capacity = 0
  free : r.free = []
  size : r.nodes.size = n
  places : ∀ i < n, (r.nodes[i]?).map core = some (some i, 0)

theorem filled_withCapacity : (withCapacity 0).Filled 0 := ⟨rfl, rfl, rfl, nofun⟩

namespace Filled

/-- The next entry gets the next place, under a handle that counts the places only as far as it
can. -/
theorem allocate (h : r.Filled n) :
    (r.allocate n).1 = { index := UInt32.ofNat n, generation := 0 } ∧ (r.allocate n).2.Filled (n + 1) := by
  let nodes := r.nodes.push { entry := some n, prev := none, next := none, generation := 0 }
  have hplaces (i : Nat) (hi : i < n + 1) : (nodes[i]?).map core = some (some i, 0) := by
    rw [Array.getElem?_push, h.size]
    split
    · rename_i heq
      rw [heq]
      rfl
    · exact h.places i (by omega)
  have hgeneration : ((nodes[(UInt32.ofNat n).toNat]?).map (·.generation)).getD 0 = 0 := by
    have hle : (UInt32.ofNat n).toNat ≤ n := by
      rw [UInt32.toNat_ofNat']
      exact Nat.mod_le n _
    have hcore := hplaces _ (Nat.lt_succ_of_le hle)
    obtain ⟨node, hnode, hsame⟩ := Option.map_eq_some_iff.mp hcore
    rw [hnode]
    exact congrArg Prod.snd hsame
  unfold Recency.allocate
  rw [h.free, h.size]
  refine ⟨congrArg (Handle.mk _) hgeneration, h.capacity, rfl, ?_, hplaces⟩
  rw [Array.size_push, h.size]

theorem admitted (h : r.Filled n) (c : Contents V) :
    (r.admitted c n).1.Filled (n + 1) ∧ (r.admitted c n).1.head = some (UInt32.ofNat n).toNat := by
  obtain ⟨hplace, hfilled⟩ := h.allocate
  obtain ⟨hcapacity, hfree, _, hsize⟩ := attachFront_frame (r.allocate n).2 (r.allocate n).1.index.toNat
  refine ⟨⟨hcapacity.trans hfilled.capacity, hfree.trans hfilled.free, hsize.trans hfilled.size,
    fun i hi => (core_attachFront _ _ i).trans (hfilled.places i hi)⟩, ?_⟩
  have hindex := congrArg (fun place => some place.index.toNat) hplace
  exact (attachFront_ends (r.allocate n).2 _).1.trans hindex

theorem listed_front (h : r.Filled n) (hi : i < n) (hhead : r.head = some i) : i ∈ r.toList := by
  obtain ⟨node, hnode, hsame⟩ := Option.map_eq_some_iff.mp (h.places i hi)
  have hentry : node.entry = some i := congrArg Prod.fst hsame
  obtain ⟨m, rfl⟩ := Nat.exists_eq_add_one_of_ne_zero (Nat.ne_zero_of_lt hi)
  unfold toList walk
  rw [h.size, hhead]
  dsimp only
  rw [hnode]
  exact List.mem_append_left _ (Option.mem_toList.mpr hentry)

/-- Each entry has a single place, and leaves the list with it. -/
theorem unlisted_released (h : r.Filled n) (hi : i < n) : i ∉ (r.released i).toList := by
  obtain ⟨node, hnode, _⟩ := Option.map_eq_some_iff.mp (h.places i hi)
  intro hlisted
  obtain ⟨j, other, hother, hentry⟩ := mem_walk hlisted
  rcases eq_or_ne j i with rfl | hne
  · rw [released_self hnode] at hother
    cases hother
    cases hentry
  · obtain ⟨old, hold, hsame, _⟩ := exists_of_core_eq (core_released hnode hne) hother
    have hlt : j < n := h.size ▸ (Array.getElem?_eq_some_iff.mp hold).1
    have hcore := h.places j hlt
    rw [hold, Option.map_some, Option.some.injEq] at hcore
    have hj := (congrArg Prod.fst hcore).symm.trans (hsame.trans hentry)
    exact hne (Option.some.inj hj)

end Filled

/-! ## The same place again and again -/

/-- All places are taken, and this one by an entry of a generation. -/
structure Housed (r : Recency) (i : Nat) (s : Serial) (generation : UInt32) : Prop where
  capacity : r.capacity = 0
  free : r.free = []
  place : (r.nodes[i]?).map core = some (some s, generation)

theorem Filled.housed (h : r.Filled (n + 1)) : r.Housed n n 0 :=
  ⟨h.capacity, h.free, h.places n n.lt_succ_self⟩

/-- A place that was released goes to the next entry, under the next generation. -/
theorem Housed.turn (h : r.Housed i s generation) (hfits : i < maxPlaces) (c : Contents V) (t : Serial) :
    ((r.released i).allocate t).1 = { index := UInt32.ofNat i, generation := generation + 1 } ∧
      ((r.released i).admitted c t).1.Housed i t (generation + 1) := by
  obtain ⟨node, hnode, hsame⟩ := Option.map_eq_some_iff.mp h.place
  have hgeneration : node.generation = generation := congrArg Prod.snd hsame
  have hfreed := released_self hnode
  obtain ⟨hcapacity, _, _, _⟩ := detach_frame r i
  have halloc : (r.released i).allocate t = ({ index := UInt32.ofNat i, generation := generation + 1 },
      { r.released i with
        free := [], nodes := (r.released i).nodes.modify i ({ · with entry := some t }) }) := by
    have hfree : (r.released i).free = [i] := congrArg (i :: ·) h.free
    unfold Recency.allocate
    rw [hfree]
    dsimp only
    rw [hfreed, ← hgeneration]
    rfl
  refine ⟨congrArg Prod.fst halloc, ?_⟩
  unfold Recency.admitted
  rw [halloc]
  dsimp only
  rw [toNat_index hfits]
  let taken : Recency := { r.released i with
    free := [], nodes := (r.released i).nodes.modify i ({ · with entry := some t }) }
  obtain ⟨hcapacity', hfree', _, _⟩ := attachFront_frame taken i
  refine ⟨hcapacity'.trans (hcapacity.trans h.capacity), hfree', (core_attachFront taken i i).trans ?_⟩
  change ((Array.modify _ i _)[i]?).map core = _
  rw [Array.getElem?_modify, if_pos rfl, hfreed, ← hgeneration]
  rfl

end Recency

end TimedCache
