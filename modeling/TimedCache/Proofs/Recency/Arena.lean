import TimedCache.Proofs.Contents
import TimedCache.Proofs.Recency.Chain

/-!
The arena of the recency list. Occupied nodes are the ones on the chain, free places are on the free
list, and the node word of an entry tells whether and where it is linked. All of this holds as long
as the arena has not outgrown the index of a handle.
-/

namespace TimedCache

namespace Recency

variable {V : Type}

/-- The places that a handle can name, except for the last one, which it shares with the word for
"not linked". -/
def maxPlaces : Nat := 4294967296

/-- The word of the node at a place. -/
def wordAt (i : Nat) (node : Node) : UInt64 :=
  ({ index := UInt32.ofNat i, generation := node.generation } : Handle).toWord

/-- The list keeps the entries of some spots, in their order, and nothing else. -/
structure Keeps (r : Recency) (c : Contents V) (order : List Spot) : Prop
    extends r.Chained order where
  occupied : ∀ (i : Nat) (node : Node) (s : Serial), r.nodes[i]? = some node →
    node.entry = some s → (i, s) ∈ order
  size_eq : r.size = order.length
  free_nodup : r.free.Nodup
  mem_free : ∀ i, i ∈ r.free ↔ ∃ node, r.nodes[i]? = some node ∧ node.entry = none
  free_alone : ∀ (i : Nat) (node : Node), r.nodes[i]? = some node → node.entry = none →
    node.prev = none ∧ node.next = none
  fits : r.nodes.size < maxPlaces
  bounded : r.capacity = 0 ∨ r.nodes.size ≤ r.capacity
  word : ∀ i s, (i, s) ∈ order → ∃ node e, r.nodes[i]? = some node ∧ c.entry? s = some e ∧
    e.node = wordAt i node
  word_of_not_mem : ∀ s e, c.entry? s = some e → (∀ i, (i, s) ∉ order) → e.node = Handle.unlinked

theorem toNat_index {i : Nat} (h : i < maxPlaces) : (UInt32.ofNat i).toNat = i := by
  rw [UInt32.toNat_ofNat']
  exact Nat.mod_eq_of_lt h

/-- No word of a node is the word for "not linked", since the last place is never reached. -/
theorem wordAt_ne_unlinked {i : Nat} (h : i + 1 < maxPlaces) (node : Node) :
    wordAt i node ≠ Handle.unlinked := by
  intro heq
  have hword := congrArg UInt64.toNat heq
  rw [wordAt, Handle.toNat_toWord, toNat_index (by omega)] at hword
  have hunlinked : Handle.unlinked.toNat = 18446744073709551615 := rfl
  rw [hunlinked] at hword
  have hgeneration := node.generation.toNat_lt
  unfold maxPlaces at h
  omega

namespace Keeps

variable {r : Recency} {c : Contents V} {order : List Spot}

theorem index_lt (h : r.Keeps c order) {i : Nat} {s : Serial} (hmem : (i, s) ∈ order) :
    i + 1 < maxPlaces := by
  have := h.lt_of_mem hmem
  have := h.fits
  omega

theorem length_le_capacity (h : r.Keeps c order) :
    r.capacity = 0 ∨ order.length ≤ r.capacity := by
  have hlength := h.length_le
  have hbounded := h.bounded
  omega

/-- Without a free place, every node is on the chain. -/
theorem size_le_of_free_nil (h : r.Keeps c order) (hfree : r.free = []) :
    r.nodes.size ≤ order.length := by
  have hsub : List.range r.nodes.size ⊆ order.map (·.1) := by
    intro i hi
    have hlt : i < r.nodes.size := List.mem_range.mp hi
    have hnode := Array.getElem?_eq_getElem hlt
    cases hentry : r.nodes[i].entry with
    | none =>
      have hmem := (h.mem_free i).mpr ⟨_, hnode, hentry⟩
      rw [hfree] at hmem
      cases hmem
    | some s => exact List.mem_map.mpr ⟨(i, s), h.occupied i _ s hnode hentry, rfl⟩
  have hlength := (List.subperm_of_subset List.nodup_range hsub).length_le
  rwa [List.length_map, List.length_range] at hlength

/-- The word of a linked entry reads back as the handle of its node. -/
theorem handle?_of_mem (h : r.Keeps c order) {i : Nat} {s : Serial} (hmem : (i, s) ∈ order) :
    ∃ node, r.nodes[i]? = some node ∧
      c.handle? s = some { index := UInt32.ofNat i, generation := node.generation } := by
  obtain ⟨node, e, hnode, he, hword⟩ := h.word i s hmem
  refine ⟨node, hnode, ?_⟩
  unfold Contents.handle? Entry.handle?
  rw [he, Option.bind_some, hword]
  exact Handle.ofWord?_toWord _ (wordAt_ne_unlinked (h.index_lt hmem) node)

theorem handle?_of_not_mem (h : r.Keeps c order) {s : Serial} (hout : ∀ i, (i, s) ∉ order) :
    c.handle? s = none := by
  unfold Contents.handle?
  cases he : c.entry? s with
  | none => rfl
  | some e =>
    have hword := h.word_of_not_mem s e he hout
    simp [Entry.handle?, hword, Handle.ofWord?]

theorem resolve?_eq_some (h : r.Keeps c order) {place : Handle} {i : Nat} :
    r.resolve? place = some i ↔
      place.index.toNat = i ∧ ∃ node s, r.nodes[i]? = some node ∧
        node.generation = place.generation ∧ (i, s) ∈ order := by
  unfold resolve?
  constructor
  · intro hsome
    split at hsome
    · rename_i node hnode
      split at hsome
      · rename_i hcond
        cases hsome
        obtain ⟨s, hs⟩ := Option.isSome_iff_exists.mp hcond.2
        exact ⟨rfl, node, s, hnode, hcond.1, h.occupied _ node s hnode hs⟩
      · cases hsome
    · cases hsome
  · rintro ⟨rfl, node, s, hnode, hgeneration, hmem⟩
    obtain ⟨node', hnode', hentry⟩ := h.node_of_mem hmem
    rw [hnode] at hnode'
    cases hnode'
    rw [hnode]
    dsimp only
    rw [if_pos ⟨hgeneration, by rw [hentry]; rfl⟩]

/-- The word of an entry leads to the entry's own place, and nowhere if the entry is not linked. -/
theorem resolve_iff (h : r.Keeps c order) {i : Nat} {s : Serial} :
    (c.handle? s).bind r.resolve? = some i ↔ (i, s) ∈ order := by
  constructor
  · intro hsome
    by_cases hout : ∀ j, (j, s) ∉ order
    · rw [h.handle?_of_not_mem hout] at hsome
      cases hsome
    · obtain ⟨j, hj⟩ := not_forall_not.mp hout
      obtain ⟨node, hnode, hplace⟩ := h.handle?_of_mem hj
      rw [hplace, Option.bind_some, h.resolve?_eq_some] at hsome
      have hindex : i = j := by
        rw [← hsome.1]
        exact toNat_index (Nat.lt_of_succ_lt (h.index_lt hj))
      rw [hindex]
      exact hj
  · intro hmem
    obtain ⟨node, hnode, hplace⟩ := h.handle?_of_mem hmem
    rw [hplace, Option.bind_some, h.resolve?_eq_some]
    exact ⟨toNat_index (Nat.lt_of_succ_lt (h.index_lt hmem)), node, s, hnode, rfl, hmem⟩

theorem resolve_eq_none (h : r.Keeps c order) {s : Serial} (hout : ∀ i, (i, s) ∉ order) :
    (c.handle? s).bind r.resolve? = none := by
  rw [Option.eq_none_iff_forall_ne_some]
  intro i hi
  exact hout i (h.resolve_iff.mp hi)

/-- An entry has one place at most. -/
theorem place_unique (h : r.Keeps c order) {i j : Nat} {s : Serial} (hi : (i, s) ∈ order)
    (hj : (j, s) ∈ order) : i = j :=
  Option.some.inj ((h.resolve_iff.mpr hi).symm.trans (h.resolve_iff.mpr hj))

theorem nodup_serials (h : r.Keeps c order) : (order.map (·.2)).Nodup := by
  apply List.Nodup.map_on _ (h.nodup.of_map _)
  rintro ⟨i, s⟩ hi ⟨j, t⟩ hj heq
  cases heq
  rw [h.place_unique hi hj]

/-- Only the node words of the contents matter to the list. -/
theorem of_contents (h : r.Keeps c order) {c' : Contents V}
    (hold : ∀ s e, c.entry? s = some e → ∃ e', c'.entry? s = some e' ∧ e'.node = e.node)
    (hnew : ∀ s e', c'.entry? s = some e' → c.entry? s = none → e'.node = Handle.unlinked) :
    r.Keeps c' order where
  toChained := h.toChained
  occupied := h.occupied
  size_eq := h.size_eq
  free_nodup := h.free_nodup
  mem_free := h.mem_free
  free_alone := h.free_alone
  fits := h.fits
  bounded := h.bounded
  word i s hmem := by
    obtain ⟨node, e, hnode, he, hword⟩ := h.word i s hmem
    obtain ⟨e', he', hsame⟩ := hold s e he
    exact ⟨node, e', hnode, he', hsame.trans hword⟩
  word_of_not_mem s e' he' hout := by
    cases he : c.entry? s with
    | none => exact hnew s e' he' he
    | some e =>
      obtain ⟨e'', he'', hsame⟩ := hold s e he
      rw [he'] at he''
      cases he''
      exact hsame.trans (h.word_of_not_mem s e he hout)

theorem of_entries_eq (h : r.Keeps c order) {c' : Contents V}
    (heq : ∀ s, c'.entry? s = c.entry? s) : r.Keeps c' order := by
  apply h.of_contents
  · intro s e he
    exact ⟨e, (heq s).trans he, rfl⟩
  · intro s e' he' hnone
    rw [heq, hnone] at he'
    cases he'

/-- A free place is not on the chain. -/
theorem away_of_free (h : r.Keeps c order) {i : Nat} {node : Node} (hnode : r.nodes[i]? = some node)
    (hnone : node.entry = none) : ∀ spot ∈ order, spot.1 ≠ i := by
  rintro ⟨j, s⟩ hspot rfl
  obtain ⟨other, hother, hentry⟩ := h.node_of_mem hspot
  rw [hnode] at hother
  cases hother
  rw [hnone] at hentry
  cases hentry

/-! ## Moving to the front -/

theorem moveToFront {before after : List Spot} {i : Nat} {s : Serial}
    (h : r.Keeps c (before ++ (i, s) :: after)) :
    (r.moveToFront i).Keeps c ((i, s) :: (before ++ after)) := by
  have hmem : (i, s) ∈ before ++ (i, s) :: after := by simp
  have hperm : ((i, s) :: (before ++ after)).Perm (before ++ (i, s) :: after) :=
    List.perm_middle.symm
  have hcore := core_moveToFront h.toChained hmem
  obtain ⟨hcapacity, hfree, hsize, hnodes⟩ := moveToFront_frame r i
  refine {
    toChained := h.toChained.moveToFront
    occupied := ?occupied, size_eq := ?size_eq, free_nodup := ?free_nodup, mem_free := ?mem_free
    free_alone := ?free_alone, fits := ?fits, bounded := ?bounded, word := ?word
    word_of_not_mem := ?word_of_not_mem }
  case occupied =>
    intro j node t hnode hentry
    obtain ⟨old, hold, hsame, _⟩ := exists_of_core_eq (hcore j) hnode
    exact hperm.mem_iff.mpr (h.occupied j old t hold (hsame.trans hentry))
  case size_eq =>
    rw [hsize, h.size_eq, hperm.length_eq]
  case free_nodup =>
    rw [hfree]
    exact h.free_nodup
  case mem_free =>
    intro j
    rw [hfree, h.mem_free]
    exact (free_iff_of_core_eq (hcore j)).symm
  case free_alone =>
    intro j node hnode hnone
    obtain ⟨old, hold, hsame, _⟩ := exists_of_core_eq (hcore j) hnode
    have haway := h.away_of_free hold (hsame.trans hnone)
    rw [h.toChained.getElem?_moveToFront haway] at hnode
    exact h.free_alone j node hnode hnone
  case fits =>
    rw [hnodes]
    exact h.fits
  case bounded =>
    rw [hcapacity, hnodes]
    exact h.bounded
  case word =>
    intro j t ht
    obtain ⟨old, e, hold, he, hword⟩ := h.word j t (hperm.mem_iff.mp ht)
    obtain ⟨node, hnode, _, hgeneration⟩ := exists_of_core_eq (hcore j).symm hold
    exact ⟨node, e, hnode, he, by rw [hword, wordAt, wordAt, hgeneration]⟩
  case word_of_not_mem =>
    intro t e he hout
    exact h.word_of_not_mem t e he fun j hj => hout j (hperm.mem_iff.mpr hj)

end Keeps

/-! ## Releasing a place -/

/-- A freed node, ready for its next generation. -/
def freed (node : Node) : Node := { node with entry := none, generation := node.generation + 1 }

/-- The list after the node at a place was taken out and its place freed. -/
def released (r : Recency) (i : Nat) : Recency :=
  { r.detach i with
    nodes := (r.detach i).nodes.modify i freed, free := i :: r.free, size := r.size - 1 }

theorem release_eq {r : Recency} {i : Nat} {s : Serial} {node : Node}
    (hnode : r.nodes[i]? = some node) (hentry : node.entry = some s) (c : Contents V) :
    r.release c i = (some s, r.released i, c.unlink s) := by
  obtain ⟨moved, hmoved, hsame, _⟩ := exists_of_core_eq (core_detach hnode i).symm hnode
  have hmovedEntry : moved.entry = some s := hsame.trans hentry
  obtain ⟨_, hfree, hsize, _⟩ := detach_frame r i
  unfold release
  simp only [hmoved, Option.bind_some, hmovedEntry, hfree, hsize]
  rfl

theorem getElem?_nodes_released (r : Recency) (i j : Nat) :
    (r.released i).nodes[j]? =
      if i = j then ((r.detach i).nodes[j]?).map freed else (r.detach i).nodes[j]? :=
  Array.getElem?_modify

/-- Away from the freed place, releasing changes neither entries nor generations. -/
theorem core_released {r : Recency} {i j : Nat} {node : Node} (h : r.nodes[i]? = some node)
    (hj : j ≠ i) :
    ((r.released i).nodes[j]?).map core = (r.nodes[j]?).map core := by
  rw [getElem?_nodes_released, if_neg (Ne.symm hj)]
  exact core_detach h j

theorem released_self {r : Recency} {i : Nat} {node : Node} (h : r.nodes[i]? = some node) :
    (r.released i).nodes[i]? =
      some { entry := none, prev := none, next := none, generation := node.generation + 1 } := by
  rw [getElem?_nodes_released, if_pos rfl, getElem?_nodes_detach h, h]
  simp [freed]

theorem Keeps.released {r : Recency} {c : Contents V} {before after : List Spot} {i : Nat}
    {s : Serial} (h : r.Keeps c (before ++ (i, s) :: after)) :
    (r.released i).Keeps (c.unlink s) (before ++ after) := by
  have hmem : (i, s) ∈ before ++ (i, s) :: after := by simp
  obtain ⟨node, hnode, hentry⟩ := h.node_of_mem hmem
  have hout := away_around h.nodup
  have hsub : ∀ spot ∈ before ++ after, spot ∈ before ++ (i, s) :: after := by
    intro spot hspot
    rcases List.mem_append.mp hspot with hin | hin
    · simp [hin]
    · simp [hin]
  have hself := released_self hnode
  have hcore (j : Nat) (hj : j ≠ i) := core_released hnode hj
  obtain ⟨hcapacity, hfree, hsize, hnodes⟩ := detach_frame r i
  refine {
    toChained := ⟨?linked, h.detach.head, h.detach.tail, h.detach.nodup⟩
    occupied := ?occupied, size_eq := ?size_eq, free_nodup := ?free_nodup, mem_free := ?mem_free
    free_alone := ?free_alone, fits := ?fits, bounded := ?bounded, word := ?word
    word_of_not_mem := ?word_of_not_mem }
  case linked =>
    apply h.detach.linked.congr
    intro spot hspot
    rw [getElem?_nodes_released, if_neg (Ne.symm (hout spot hspot))]
  case occupied =>
    intro j new t hnew hnewEntry
    have hj : j ≠ i := by
      rintro rfl
      rw [hself] at hnew
      cases hnew
      cases hnewEntry
    obtain ⟨old, hold, hsame, _⟩ := exists_of_core_eq (hcore j hj) hnew
    have hin := h.occupied j old t hold (hsame.trans hnewEntry)
    simp only [List.mem_append, List.mem_cons, Prod.mk.injEq] at hin ⊢
    tauto
  case size_eq =>
    change r.size - 1 = (before ++ after).length
    rw [h.size_eq]
    simp only [List.length_append, List.length_cons]
    omega
  case free_nodup =>
    refine List.nodup_cons.mpr ⟨?_, h.free_nodup⟩
    intro hin
    obtain ⟨other, hother, hnone⟩ := (h.mem_free i).mp hin
    rw [hnode] at hother
    cases hother
    rw [hentry] at hnone
    cases hnone
  case mem_free =>
    intro j
    change j ∈ i :: r.free ↔ _
    rw [List.mem_cons]
    by_cases hj : j = i
    · subst hj
      exact ⟨fun _ => ⟨_, hself, rfl⟩, fun _ => Or.inl rfl⟩
    · rw [h.mem_free, or_iff_right hj]
      exact (free_iff_of_core_eq (hcore j hj)).symm
  case free_alone =>
    intro j new hnew hnone
    by_cases hj : j = i
    · subst hj
      rw [hself] at hnew
      cases hnew
      exact ⟨rfl, rfl⟩
    · obtain ⟨old, hold, hsame, _⟩ := exists_of_core_eq (hcore j hj) hnew
      have haway := h.away_of_free hold (hsame.trans hnone)
      rw [getElem?_nodes_released, if_neg (Ne.symm hj), h.getElem?_detach haway] at hnew
      exact h.free_alone j new hnew hnone
  case fits =>
    change ((r.detach i).nodes.modify i freed).size < maxPlaces
    rw [Array.size_modify, hnodes]
    exact h.fits
  case bounded =>
    change (r.detach i).capacity = 0
      ∨ ((r.detach i).nodes.modify i freed).size ≤ (r.detach i).capacity
    rw [Array.size_modify, hcapacity, hnodes]
    exact h.bounded
  case word =>
    intro j t ht
    have hj : j ≠ i := hout (j, t) ht
    obtain ⟨old, e, hold, he, hword⟩ := h.word j t (hsub _ ht)
    obtain ⟨new, hnew, _, hgeneration⟩ := exists_of_core_eq (hcore j hj).symm hold
    have hts : s ≠ t := by
      rintro rfl
      exact hj (h.place_unique (hsub _ ht) hmem)
    refine ⟨new, e, hnew, ?_, ?_⟩
    · unfold Contents.unlink
      rw [Contents.entry?_modify, if_neg hts, he]
    · rw [hword, wordAt, wordAt, hgeneration]
  case word_of_not_mem =>
    intro t e he haway
    unfold Contents.unlink at he
    rw [Contents.entry?_modify] at he
    split at he
    · obtain ⟨old, _, rfl⟩ := Option.map_eq_some_iff.mp he
      exact old.node_unlink
    · rename_i hts
      apply h.word_of_not_mem t e he
      intro j hj
      simp only [List.mem_append, List.mem_cons, Prod.mk.injEq] at hj haway
      rcases hj with hin | ⟨_, heq⟩ | hin
      · exact haway j (Or.inl hin)
      · exact hts heq.symm
      · exact haway j (Or.inr hin)

/-! ## Linking an entry -/

/-- The arena cannot outgrow the index of a handle, or at least has not done so yet. -/
def Fitting (r : Recency) : Prop :=
  (0 < r.capacity ∧ r.capacity < maxPlaces) ∨ r.nodes.size < maxPlaces

/-- The list and the contents after an entry was given a place in front. -/
def admitted (r : Recency) (c : Contents V) (s : Serial) : Recency × Contents V :=
  let (h, allocated) := r.allocate s
  let chained := allocated.attachFront h.index.toNat
  ({ chained with size := chained.size + 1 }, c.link s h)

/-- A place was given to an entry, and nothing else happened. -/
structure Allocated (r r' : Recency) (s : Serial) (i : Nat) (generation : UInt32) : Prop where
  self : r'.nodes[i]? = some { entry := some s, prev := none, next := none, generation }
  other : ∀ j, j ≠ i → r'.nodes[j]? = r.nodes[j]?
  wasFree : ∀ node, r.nodes[i]? = some node → node.entry = none ∧ node.generation = generation
  fresh : r.nodes[i]? = none → generation = 0
  free : r.free = i :: r'.free ∨ (r.free = [] ∧ r'.free = [])
  nodes_size : r'.nodes.size = r.nodes.size ∨ (r.free = [] ∧ r'.nodes.size = r.nodes.size + 1)
  head : r'.head = r.head
  tail : r'.tail = r.tail
  capacity : r'.capacity = r.capacity
  size : r'.size = r.size

theorem Keeps.allocate {r : Recency} {c : Contents V} {order : List Spot} (h : r.Keeps c order)
    (s : Serial) :
    ∃ i generation, (r.allocate s).1 = { index := UInt32.ofNat i, generation } ∧
      Allocated r (r.allocate s).2 s i generation := by
  cases hfree : r.free with
  | nil =>
    refine ⟨r.nodes.size, 0, ?_, ?_⟩
    · unfold Recency.allocate
      rw [hfree]
      dsimp only
      rw [toNat_index h.fits, Array.getElem?_push_size]
      rfl
    · unfold Recency.allocate
      rw [hfree]
      constructor <;> try rfl
      · simp
      · intro j hj
        simp [Array.getElem?_push, hj]
      · intro node hnode
        simp at hnode
      · exact fun _ => rfl
      · exact Or.inr ⟨hfree, by simp⟩
      · exact Or.inr ⟨hfree, by simp⟩
  | cons i rest =>
    obtain ⟨node, hnode, hnone⟩ := (h.mem_free i).mp (by simp [hfree])
    obtain ⟨hprev, hnext⟩ := h.free_alone i node hnode hnone
    refine ⟨i, node.generation, ?_, ?_⟩
    · simp [Recency.allocate, hfree, hnode]
    · unfold Recency.allocate
      rw [hfree]
      constructor <;> try rfl
      · obtain ⟨entry, prev, next, generation⟩ := node
        cases hprev
        cases hnext
        simp [Array.getElem?_modify, hnode]
      · intro j hj
        simp [Array.getElem?_modify, Ne.symm hj]
      · intro other hother
        rw [hnode] at hother
        cases hother
        exact ⟨hnone, rfl⟩
      · intro hout
        rw [hnode] at hout
        cases hout
      · exact Or.inl hfree
      · exact Or.inl (by simp)

namespace Allocated

variable {r r' : Recency} {s : Serial} {i : Nat} {generation : UInt32}

theorem free_nodup (h : Allocated r r' s i generation) (hnodup : r.free.Nodup) :
    r'.free.Nodup := by
  rcases h.free with heq | ⟨_, heq⟩
  · rw [heq] at hnodup
    exact (List.nodup_cons.mp hnodup).2
  · rw [heq]
    exact List.nodup_nil

theorem not_mem_free (h : Allocated r r' s i generation) (hnodup : r.free.Nodup) :
    i ∉ r'.free := by
  rcases h.free with heq | ⟨_, heq⟩
  · rw [heq] at hnodup
    exact (List.nodup_cons.mp hnodup).1
  · rw [heq]
    exact List.not_mem_nil

theorem mem_free_iff (h : Allocated r r' s i generation) {j : Nat} (hj : j ≠ i) :
    j ∈ r'.free ↔ j ∈ r.free := by
  rcases h.free with heq | ⟨heq, heq'⟩
  · rw [heq, List.mem_cons, or_iff_right hj]
  · rw [heq, heq']

/-- A place that is free after chaining the new node is another one. -/
theorem ne_of_free (h : Allocated r r' s i generation) {nodes : Array Node}
    (hcore : (nodes[i]?).map core = (r'.nodes[i]?).map core) {j : Nat} {node : Node}
    (hnode : nodes[j]? = some node) (hnone : node.entry = none) : j ≠ i := by
  rintro rfl
  obtain ⟨old, hold, hsame, _⟩ := exists_of_core_eq hcore hnode
  rw [h.self] at hold
  cases hold
  rw [hnone] at hsame
  cases hsame

end Allocated

namespace Keeps

variable {r r' : Recency} {c : Contents V} {order : List Spot} {s : Serial} {i : Nat}
  {generation : UInt32}

/-- A new place is added only where every place is taken, so the arena stays within the capacity. -/
theorem bounded_of_allocated (h : r.Keeps c order) (halloc : Allocated r r' s i generation)
    (hroom : r.capacity = 0 ∨ order.length < r.capacity) :
    r'.capacity = 0 ∨ r'.nodes.size ≤ r'.capacity := by
  have hbefore := h.bounded
  rw [halloc.capacity]
  rcases halloc.nodes_size with heq | ⟨hnil, heq⟩
  · rwa [heq]
  · have htaken := h.size_le_of_free_nil hnil
    omega

theorem away_of_allocated (h : r.Keeps c order) (halloc : Allocated r r' s i generation) :
    ∀ spot ∈ order, spot.1 ≠ i := by
  rintro ⟨j, t⟩ hspot rfl
  obtain ⟨node, hnode, hentry⟩ := h.node_of_mem hspot
  rw [(halloc.wasFree node hnode).1] at hentry
  cases hentry

theorem chained_of_allocated (h : r.Keeps c order) (halloc : Allocated r r' s i generation) :
    r'.Chained order := by
  refine ⟨?_, halloc.head.trans h.head, halloc.tail.trans h.tail, h.nodup⟩
  exact h.linked.congr fun spot hspot => halloc.other _ (h.away_of_allocated halloc spot hspot)

/-- The entry that a place was given to is chained in front. -/
theorem attached {e : Entry V} (h : r.Keeps c order) (halloc : Allocated r r' s i generation)
    (he : c.entry? s = some e) (hout : ∀ i, (i, s) ∉ order)
    (hbounded : r'.capacity = 0 ∨ r'.nodes.size ≤ r'.capacity)
    (hfits : r'.nodes.size < maxPlaces) :
    ({ r'.attachFront i with size := (r'.attachFront i).size + 1 } : Recency).Keeps
      (c.link s { index := UInt32.ofNat i, generation }) ((i, s) :: order) := by
  have haway := h.away_of_allocated halloc
  have hchained := h.chained_of_allocated halloc
  obtain ⟨hcapacity, hfree, hsize, hnodes⟩ := attachFront_frame r' i
  have hfront := hchained.attachFront halloc.self rfl haway
  have hcore (j : Nat) := core_attachFront r' i j
  refine {
    toChained := ⟨hfront.linked, hfront.head, hfront.tail, hfront.nodup⟩
    occupied := ?occupied, size_eq := ?size_eq, free_nodup := ?free_nodup, mem_free := ?mem_free
    free_alone := ?free_alone, fits := ?fits, bounded := ?bounded, word := ?word
    word_of_not_mem := ?word_of_not_mem }
  case occupied =>
    intro j node t hnode hentry
    obtain ⟨old, hold, hsame, _⟩ := exists_of_core_eq (hcore j) hnode
    by_cases hj : j = i
    · subst hj
      rw [halloc.self] at hold
      cases hold
      rw [hentry] at hsame
      cases hsame
      exact List.mem_cons_self
    · rw [halloc.other j hj] at hold
      exact List.mem_cons_of_mem _ (h.occupied j old t hold (hsame.trans hentry))
  case size_eq =>
    change (r'.attachFront i).size + 1 = ((i, s) :: order).length
    rw [hsize, halloc.size, h.size_eq, List.length_cons]
  case free_nodup =>
    change (r'.attachFront i).free.Nodup
    rw [hfree]
    exact halloc.free_nodup h.free_nodup
  case mem_free =>
    intro j
    change j ∈ (r'.attachFront i).free ↔ _
    rw [hfree]
    by_cases hj : j = i
    · subst hj
      refine iff_of_false (halloc.not_mem_free h.free_nodup) ?_
      rintro ⟨node, hnode, hnone⟩
      exact halloc.ne_of_free (hcore j) hnode hnone rfl
    · rw [halloc.mem_free_iff hj, h.mem_free, ← halloc.other j hj]
      exact (free_iff_of_core_eq (hcore j)).symm
  case free_alone =>
    intro j node hnode hnone
    obtain ⟨old, hold, hsame, _⟩ := exists_of_core_eq (hcore j) hnode
    have hj := halloc.ne_of_free (hcore i) hnode hnone
    rw [halloc.other j hj] at hold
    have haway' := h.away_of_free hold (hsame.trans hnone)
    change (r'.attachFront i).nodes[j]? = some node at hnode
    rw [hchained.getElem?_attachFront haway haway' hj, halloc.other j hj] at hnode
    exact h.free_alone j node hnode hnone
  case fits =>
    change (r'.attachFront i).nodes.size < maxPlaces
    rwa [hnodes]
  case bounded =>
    change (r'.attachFront i).capacity = 0
      ∨ (r'.attachFront i).nodes.size ≤ (r'.attachFront i).capacity
    rwa [hcapacity, hnodes]
  case word =>
    intro j t ht
    rcases List.mem_cons.mp ht with heq | ht
    · cases heq
      obtain ⟨node, hnode, _, hgeneration⟩ := exists_of_core_eq (hcore i).symm halloc.self
      refine ⟨node, e.link { index := UInt32.ofNat i, generation }, hnode, ?_, ?_⟩
      · unfold Contents.link
        rw [Contents.entry?_modify, if_pos rfl, he, Option.map_some]
      · rw [Entry.node_link, wordAt, hgeneration]
    · obtain ⟨old, e', hold, he', hword⟩ := h.word j t ht
      rw [← halloc.other j (haway _ ht)] at hold
      obtain ⟨node, hnode, _, hgeneration⟩ := exists_of_core_eq (hcore j).symm hold
      have hts : s ≠ t := by
        rintro rfl
        exact hout j ht
      refine ⟨node, e', hnode, ?_, ?_⟩
      · unfold Contents.link
        rw [Contents.entry?_modify, if_neg hts, he']
      · rw [hword, wordAt, wordAt, hgeneration]
  case word_of_not_mem =>
    intro t e' he' haway'
    have hts : s ≠ t := by
      rintro rfl
      exact haway' i List.mem_cons_self
    unfold Contents.link at he'
    rw [Contents.entry?_modify, if_neg hts] at he'
    exact h.word_of_not_mem t e' he' fun j hj => haway' j (List.mem_cons_of_mem _ hj)

theorem admitted {e : Entry V} (h : r.Keeps c order) (he : c.entry? s = some e)
    (hout : ∀ i, (i, s) ∉ order) (hroom : r.capacity = 0 ∨ order.length < r.capacity)
    (hfits : (r.admitted c s).1.Fitting) :
    ∃ i, (r.admitted c s).1.Keeps (r.admitted c s).2 ((i, s) :: order) := by
  obtain ⟨i, generation, hplace, halloc⟩ := h.allocate s
  revert hfits
  unfold Recency.admitted
  generalize r.allocate s = result at hplace halloc ⊢
  obtain ⟨place, r'⟩ := result
  dsimp only at hplace halloc ⊢
  intro hfits
  obtain ⟨hcapacity, _, _, hnodes⟩ := attachFront_frame r' place.index.toNat
  have hbounded := h.bounded_of_allocated halloc hroom
  replace hfits : r'.nodes.size < maxPlaces := by
    unfold Fitting at hfits
    dsimp only at hfits
    rw [hcapacity, hnodes] at hfits
    omega
  have hlt : i < r'.nodes.size := (Array.getElem?_eq_some_iff.mp halloc.self).1
  subst hplace
  rw [toNat_index (Nat.lt_trans hlt hfits)]
  exact ⟨i, h.attached halloc he hout hbounded hfits⟩

end Keeps

end Recency

end TimedCache
