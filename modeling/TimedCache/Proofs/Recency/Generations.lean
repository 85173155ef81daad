import TimedCache.Proofs.Recency.Operations

/-!
What becomes of the places of the arena. An operation frees places, each for its next generation,
and then takes at most one, for the entry that it adds. So a place whose generation has not moved on
still has the occupant it had.
-/

namespace TimedCache

namespace Recency

variable {V : Type} {r r' r'' : Recency} {c : Contents V} {order : List Spot}

/-- Some occupied places were freed. -/
structure Frees (r r' : Recency) : Prop where
  size : r'.nodes.size = r.nodes.size
  places : ∀ (i : Nat) (node : Node), r.nodes[i]? = some node → ∃ node', r'.nodes[i]? = some node' ∧
    ((node'.entry = node.entry ∧ node'.generation = node.generation) ∨
      (node'.entry = none ∧ node'.generation = node.generation + 1 ∧ node.entry ≠ none))

/-- At most one free or new place was taken, for an entry. -/
structure Takes (r r' : Recency) (s : Serial) : Prop where
  places : ∀ (i : Nat) (node : Node), r.nodes[i]? = some node → ∃ node', r'.nodes[i]? = some node' ∧
    node'.generation = node.generation ∧
      (node'.entry = node.entry ∨ (node.entry = none ∧ node'.entry = some s))
  fresh : ∀ (i : Nat) (node' : Node), r.nodes[i]? = none → r'.nodes[i]? = some node' →
    node'.generation = 0 ∧ node'.entry = some s

/-- Some places were freed, and then one was taken at most. -/
def Turns (r r' : Recency) (s : Serial) : Prop :=
  ∃ between, Frees r between ∧ Takes between r' s

namespace Frees

theorem of_core (h : ∀ j : Nat, (r'.nodes[j]?).map core = (r.nodes[j]?).map core) : Frees r r' where
  size := by
    rcases Nat.lt_trichotomy r'.nodes.size r.nodes.size with hlt | heq | hlt
    · have hsome := h r'.nodes.size
      rw [Array.getElem?_eq_none (Nat.le_refl _), Array.getElem?_eq_getElem hlt] at hsome
      cases hsome
    · exact heq
    · have hsome := h r.nodes.size
      rw [Array.getElem?_eq_none (Nat.le_refl r.nodes.size), Array.getElem?_eq_getElem hlt] at hsome
      cases hsome
  places i node hnode := by
    obtain ⟨node', hnode', hentry, hgeneration⟩ := exists_of_core_eq (h i).symm hnode
    exact ⟨node', hnode', Or.inl ⟨hentry, hgeneration⟩⟩

theorem refl (r : Recency) : Frees r r := .of_core fun _ => rfl

theorem trans (hfirst : Frees r r') (hsecond : Frees r' r'') : Frees r r'' where
  size := hsecond.size.trans hfirst.size
  places i node hnode := by
    obtain ⟨node', hnode', hfirst'⟩ := hfirst.places i node hnode
    obtain ⟨node'', hnode'', hsecond'⟩ := hsecond.places i node' hnode'
    refine ⟨node'', hnode'', ?_⟩
    rcases hfirst' with ⟨hentry, hgeneration⟩ | ⟨hentry, hgeneration, hsome⟩
    · rw [hentry, hgeneration] at hsecond'
      exact hsecond'
    · right
      rcases hsecond' with ⟨hentry', hgeneration'⟩ | ⟨_, _, hsome'⟩
      · exact ⟨hentry'.trans hentry, hgeneration'.trans hgeneration, hsome⟩
      · exact absurd hentry hsome'

theorem released {i : Nat} {node : Node} (hnode : r.nodes[i]? = some node)
    (hentry : node.entry ≠ none) : Frees r (r.released i) where
  size := by
    change ((r.detach i).nodes.modify i freed).size = _
    rw [Array.size_modify, (detach_frame r i).2.2.2]
  places j other hother := by
    rcases eq_or_ne j i with rfl | hne
    · rw [hnode] at hother
      cases hother
      exact ⟨_, released_self hnode, Or.inr ⟨rfl, rfl, hentry⟩⟩
    · obtain ⟨node', hnode', hsame, hgeneration⟩ :=
        exists_of_core_eq (core_released hnode hne).symm hother
      exact ⟨node', hnode', Or.inl ⟨hsame, hgeneration⟩⟩

end Frees

theorem Takes.of_core (h : ∀ j : Nat, (r'.nodes[j]?).map core = (r.nodes[j]?).map core) (s : Serial) :
    Takes r r' s where
  places i node hnode := by
    obtain ⟨node', hnode', hentry, hgeneration⟩ := exists_of_core_eq (h i).symm hnode
    exact ⟨node', hnode', hgeneration, Or.inl hentry⟩
  fresh i node' hnone hnode' := by
    have hsome := h i
    rw [hnone, hnode'] at hsome
    cases hsome

theorem Takes.refl (r : Recency) (s : Serial) : Takes r r s := .of_core (fun _ => rfl) s

theorem Frees.turns (h : Frees r r') (s : Serial) : Turns r r' s := ⟨r', h, .refl r' s⟩

/-! ## Operations -/

theorem Keeps.core_hit (h : r.Keeps c order) (place : Handle) (j : Nat) :
    ((r.hit place).nodes[j]?).map core = (r.nodes[j]?).map core := by
  unfold Recency.hit
  cases hplace : r.resolve? place with
  | none => rfl
  | some i =>
    obtain ⟨_, _, s, _, _, hmem⟩ := h.resolve?_eq_some.mp hplace
    exact core_moveToFront h.toChained hmem j

theorem Keeps.frees_hitAll (h : r.Keeps c order) (places : List Handle) :
    Frees r (r.hitAll places) := by
  induction places generalizing r order with
  | nil => exact .refl r
  | cons place rest ih =>
    obtain ⟨order', hnext, _⟩ := h.hit place
    exact (Frees.of_core (h.core_hit place)).trans (ih hnext)

theorem Keeps.frees_remove (h : r.Keeps c order) (s : Serial) : Frees r (r.remove c s).2.1 := by
  have hvacated : r.Keeps (c.vacate s).2 order := h.of_entries_eq fun t =>
    Contents.entry?_vacate c s t
  unfold Recency.remove
  dsimp only
  cases hplace : ((c.vacate s).2.handle? s).bind r.resolve? with
  | none => exact .refl r
  | some i =>
    obtain ⟨node, hnode, hentry⟩ := h.node_of_mem (hvacated.resolve_iff.mp hplace)
    dsimp only
    rw [release_eq hnode hentry]
    exact .released hnode (by simp [hentry])

theorem frees_clear (r : Recency) (c : Contents V) : Frees r (r.clear c).1 where
  size := Array.size_map
  places i node hnode := by
    unfold Recency.clear
    simp only [Array.getElem?_map, hnode, Option.map_some]
    refine ⟨_, rfl, ?_⟩
    cases hentry : node.entry with
    | none => exact Or.inl ⟨rfl, by simp⟩
    | some s => exact Or.inr ⟨rfl, by simp, by simp⟩

theorem Keeps.frees_makeRoom (h : r.Keeps c order) : Frees r (r.makeRoom c).2.1 := by
  have hbound := h.length_le_capacity
  by_cases hfull : 0 < r.capacity ∧ r.capacity ≤ order.length
  · have hne : order ≠ [] := by
      rintro rfl
      simp only [List.length_nil] at hfull
      omega
    obtain ⟨front, ⟨i, victim⟩, rfl⟩ := (List.eq_nil_or_concat' order).resolve_left hne
    rw [List.length_append, List.length_singleton] at hfull
    obtain ⟨node, hnode, hentry⟩ := h.node_of_mem (i := i) (s := victim) (by simp)
    rw [h.makeRoom_of_full hfull.1 hfull.2]
    exact .released hnode (by simp [hentry])
  · rw [h.makeRoom_of_room (by omega)]
    exact .refl r

theorem Keeps.takes_admitted (h : r.Keeps c order) (s : Serial)
    (hfits : (r.admitted c s).1.nodes.size < maxPlaces) : Takes r (r.admitted c s).1 s := by
  obtain ⟨i, generation, hplace, halloc⟩ := h.allocate s
  revert hfits
  unfold Recency.admitted
  generalize r.allocate s = result at hplace halloc ⊢
  obtain ⟨place, r'⟩ := result
  dsimp only at hplace halloc ⊢
  intro hfits
  rw [(attachFront_frame r' place.index.toNat).2.2.2] at hfits
  have hlt : i < r'.nodes.size := (Array.getElem?_eq_some_iff.mp halloc.self).1
  have hindex : place.index.toNat = i := by
    rw [hplace]
    exact toNat_index (by omega)
  rw [hindex]
  have hcore (j : Nat) := core_attachFront r' i j
  constructor
  · intro j node hnode
    rcases eq_or_ne j i with rfl | hne
    · obtain ⟨hnone, hgeneration⟩ := halloc.wasFree node hnode
      obtain ⟨node', hnode', hentry, hsame⟩ := exists_of_core_eq (hcore j).symm halloc.self
      exact ⟨node', hnode', hsame.trans hgeneration.symm, Or.inr ⟨hnone, hentry⟩⟩
    · rw [← halloc.other j hne] at hnode
      obtain ⟨node', hnode', hentry, hsame⟩ := exists_of_core_eq (hcore j).symm hnode
      exact ⟨node', hnode', hsame, Or.inl hentry⟩
  · intro j node' hnone hnode'
    obtain ⟨old, hold, hentry, hgeneration⟩ := exists_of_core_eq (hcore j) hnode'
    rcases eq_or_ne j i with rfl | hne
    · rw [halloc.self] at hold
      cases hold
      exact ⟨hgeneration.symm.trans (halloc.fresh hnone), hentry.symm⟩
    · rw [halloc.other j hne, hnone] at hold
      cases hold

/-- An entry that is linked keeps its place. -/
theorem Keeps.frees_add (h : r.Keeps c order) {s : Serial} (hs : s ∈ r.toList) :
    Frees r (r.add c s).2.1 := by
  obtain ⟨i, hmem⟩ := h.mem_toList.mp hs
  obtain ⟨before, after, rfl⟩ := List.append_of_mem hmem
  rw [h.add_of_linked]
  exact .of_core (core_moveToFront h.toChained hmem)

/-- Adding an entry frees a place first, if the list is full, and then takes one. -/
theorem Keeps.turns_add (h : r.Keeps c order) (s : Serial)
    (hfits : (r.add c s).2.1.nodes.size < maxPlaces) : Turns r (r.add c s).2.1 s := by
  by_cases hlisted : s ∈ r.toList
  · exact (h.frees_add hlisted).turns s
  · have hout := h.not_listed hlisted
    cases hocc : c.occupies s with
    | false =>
      rw [h.add_of_gone hout hocc]
      exact (Frees.refl r).turns s
    | true =>
      rw [h.add_of_unlinked hout hocc] at hfits ⊢
      obtain ⟨_, hkeeps, _⟩ := h.makeRoom
      exact ⟨_, h.frees_makeRoom, hkeeps.takes_admitted s hfits⟩

/-! ## Places over time -/

variable {s t : Serial}

theorem Turns.places (h : Turns r r' t) {i : Nat} {node : Node} (hnode : r.nodes[i]? = some node) :
    ∃ node', r'.nodes[i]? = some node' ∧
      ((node'.generation = node.generation ∧ (node.entry = none ∨ node'.entry = node.entry)) ∨
        (node'.generation = node.generation + 1 ∧ (node'.entry = none ∨ node'.entry = some t))) := by
  obtain ⟨between, hfrees, htakes⟩ := h
  obtain ⟨middle, hmiddle, hfreed⟩ := hfrees.places i node hnode
  obtain ⟨node', hnode', hsame, htaken⟩ := htakes.places i middle hmiddle
  refine ⟨node', hnode', ?_⟩
  rw [hsame]
  rcases hfreed with ⟨hentry, hgeneration⟩ | ⟨hentry, hgeneration, _⟩
  · refine Or.inl ⟨hgeneration, ?_⟩
    rcases htaken with hkept | ⟨hnone, _⟩
    · exact Or.inr (hkept.trans hentry)
    · exact Or.inl (hentry.symm.trans hnone)
  · refine Or.inr ⟨hgeneration, ?_⟩
    rcases htaken with hkept | ⟨_, hadded⟩
    · exact Or.inl (hkept.trans hentry)
    · exact Or.inr hadded

theorem Turns.fresh (h : Turns r r' t) {i : Nat} {node' : Node} (hnone : r.nodes[i]? = none)
    (hnode' : r'.nodes[i]? = some node') : node'.generation = 0 := by
  obtain ⟨between, hfrees, htakes⟩ := h
  have hout : between.nodes[i]? = none := by
    rw [Array.getElem?_eq_none_iff, hfrees.size]
    exact Array.getElem?_eq_none_iff.mp hnone
  exact (htakes.fresh i node' hout hnode').1

/-- Any entry but the one that was added had its place before. -/
theorem Turns.entry (h : Turns r r' t) (hne : s ≠ t) {i : Nat} {node' : Node}
    (hnode' : r'.nodes[i]? = some node') (hentry : node'.entry = some s) :
    ∃ node, r.nodes[i]? = some node ∧ node.entry = some s := by
  obtain ⟨between, hfrees, htakes⟩ := h
  cases hmiddle : between.nodes[i]? with
  | none =>
    have hadded := (htakes.fresh i node' hmiddle hnode').2
    rw [hentry] at hadded
    cases hadded
    exact absurd rfl hne
  | some middle =>
    obtain ⟨same, hsame, _, hold | ⟨_, hadded⟩⟩ := htakes.places i middle hmiddle
    · rw [hnode'] at hsame
      cases hsame
      have hlt : i < r.nodes.size := by
        rw [← hfrees.size]
        exact (Array.getElem?_eq_some_iff.mp hmiddle).1
      have hnode := Array.getElem?_eq_getElem hlt
      obtain ⟨other, hother, ⟨hkept, _⟩ | ⟨hfreed, _⟩⟩ := hfrees.places i _ hnode
      · rw [hmiddle] at hother
        cases hother
        exact ⟨_, hnode, by rw [← hkept, ← hold, hentry]⟩
      · rw [hmiddle] at hother
        cases hother
        rw [← hold, hentry] at hfreed
        cases hfreed
    · rw [hnode'] at hsame
      cases hsame
      rw [hentry] at hadded
      cases hadded
      exact absurd rfl hne

/-- How often a place has been freed, as its generation tells. -/
def timesFreed (r : Recency) (i : Nat) : Nat := ((r.nodes[i]?).map (·.generation.toNat)).getD 0

/-- Whether a place has come to another generation. -/
def regenerated (r r' : Recency) (i : Nat) : Bool :=
  match r.nodes[i]?, r'.nodes[i]? with
  | some node, some node' => node.generation != node'.generation
  | _, _ => false

/-- No generation has started anew. -/
def Rises (r r' : Recency) : Prop :=
  ∀ (i : Nat) (node node' : Node), r.nodes[i]? = some node → r'.nodes[i]? = some node' →
    node.generation ≤ node'.generation

/-- A place that has not been freed too often comes to its next generation at most. -/
theorem Turns.timesFreed (h : Turns r r' t) {i : Nat}
    (hbound : r.timesFreed i + (regenerated r r' i).toNat < 2 ^ 32) :
    r'.timesFreed i = r.timesFreed i + (regenerated r r' i).toNat := by
  unfold regenerated at hbound ⊢
  unfold Recency.timesFreed at hbound ⊢
  cases hnode : r.nodes[i]? with
  | none =>
    cases hnode' : r'.nodes[i]? with
    | none => simp
    | some node' => simp [h.fresh hnode hnode']
  | some node =>
    obtain ⟨node', hnode', ⟨hsame, _⟩ | ⟨hnext, _⟩⟩ := h.places hnode
    · rw [hnode']
      simp [hsame]
    · have hne : (node.generation != node'.generation) = true := by simp [hnext]
      rw [hnode, hnode'] at hbound
      rw [hnode']
      dsimp only [Option.map_some, Option.getD_some] at hbound ⊢
      rw [hne, Bool.toNat_true] at hbound ⊢
      rw [hnext, UInt32.toNat_add]
      exact Nat.mod_eq_of_lt hbound

theorem Turns.rises (h : Turns r r' t)
    (hbound : ∀ i, r.timesFreed i + (regenerated r r' i).toNat < 2 ^ 32) : Rises r r' := by
  intro i node node' hnode hnode'
  have hcount := h.timesFreed (hbound i)
  unfold Recency.timesFreed at hcount
  rw [hnode, hnode', Option.map_some, Option.getD_some, Option.map_some, Option.getD_some] at hcount
  rw [UInt32.le_iff_toNat_le]
  omega

end Recency

end TimedCache
