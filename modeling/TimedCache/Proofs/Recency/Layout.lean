import TimedCache.Proofs.Recency.Traps

/-!
How the arena of the recency list is laid out. The occupied nodes form one chain from the head to
the tail, the rest is on the free list, and the word of an entry tells its node. This is said of the
fields as they are, without naming the entries that the list should keep.
-/

namespace TimedCache

namespace Recency

variable {V : Type}

def next? (r : Recency) (i : Nat) : Option Nat := r.nodes[i]?.bind (·.next)

def prev? (r : Recency) (i : Nat) : Option Nat := r.nodes[i]?.bind (·.prev)

/-- The entry that occupies a node, if there is one. -/
def tenant? (r : Recency) (i : Nat) : Option Serial := r.nodes[i]?.bind (·.entry)

/-- The nodes met from one on, following `next` for a number of steps. -/
def follow (r : Recency) : Nat → Option Nat → List Nat
  | fuel + 1, some i => i :: r.follow fuel (r.next? i)
  | _, _ => []

/-- The nodes met from the head on, as many as the arena has at most. -/
def path (r : Recency) : List Nat := r.follow r.nodes.size r.head

structure WellLaid (r : Recency) (c : Contents V) : Prop where
  /-- The chain ends by itself: more steps meet no more nodes. -/
  ends : ∀ fuel, r.nodes.size ≤ fuel → r.follow fuel r.head = r.path
  path_nodup : r.path.Nodup
  mem_path : ∀ i, i ∈ r.path ↔ (r.tenant? i).isSome
  tail : r.tail = r.path.getLast?
  prev_iff : ∀ i j, r.prev? j = some i ↔ r.next? i = some j
  head_first : ∀ i, r.head = some i → r.prev? i = none
  tail_last : ∀ i, r.tail = some i → r.next? i = none
  /-- Every index kept anywhere is one of the arena. -/
  in_range : ∀ i, (r.head = some i ∨ r.tail = some i ∨ i ∈ r.free ∨
    ∃ j, r.next? j = some i ∨ r.prev? j = some i) → i < r.nodes.size
  size_eq : r.size = (List.range r.nodes.size).countP fun i => (r.tenant? i).isSome
  free_nodup : r.free.Nodup
  mem_free : ∀ i, i ∈ r.free ↔ i < r.nodes.size ∧ r.tenant? i = none
  free_alone : ∀ i, r.tenant? i = none → r.prev? i = none ∧ r.next? i = none
  tenant_made : ∀ i s, r.tenant? i = some s → ∃ e, c.entry? s = some e
  /-- The word of an entry reads back as the handle of the node that it occupies, … -/
  word : ∀ s e i node, c.entry? s = some e → r.nodes[i]? = some node →
    (Handle.ofWord? e.node = some { index := UInt32.ofNat i, generation := node.generation } ↔
      node.entry = some s)
  /-- … and as nothing if it occupies none. -/
  unlinked : ∀ s e, c.entry? s = some e → (∀ i, r.tenant? i ≠ some s) →
    Handle.ofWord? e.node = none

/-- Following a chain meets its places in order, and ends with it. -/
theorem follow_of_linked (r : Recency) {l : List Spot} {prev : Option Nat} {fuel : Nat}
    (h : Linked r.nodes prev l none) (hfuel : l.length ≤ fuel) :
    r.follow fuel (firstOf l none) = l.map (·.1) := by
  induction l generalizing prev fuel with
  | nil => cases fuel <;> rfl
  | cons spot rest ih =>
    obtain ⟨i, s⟩ := spot
    obtain ⟨⟨node, hnode, _, _, hnext⟩, hrest⟩ := h
    cases fuel with
    | zero => simp at hfuel
    | succ fuel =>
      have htail := ih hrest (Nat.le_of_succ_le_succ hfuel)
      change i :: r.follow fuel (r.next? i) = i :: rest.map (·.1)
      rw [next?, hnode, Option.bind_some, hnext, htail]

theorem getLast?_map_of_lastOf (l : List Spot) : (l.map (·.1)).getLast? = lastOf none l := by
  rcases List.eq_nil_or_concat' l with rfl | ⟨front, spot, rfl⟩
  · rfl
  · rw [lastOf_append, List.map_append, List.map_singleton, List.getLast?_concat]
    rfl

namespace Chained

variable {r : Recency} {order before after : List Spot} {i j : Nat} {s : Serial}

theorem links_around (h : r.Chained (before ++ (i, s) :: after)) :
    r.prev? i = lastOf none before ∧ r.next? i = firstOf after none := by
  obtain ⟨node, hnode, _, hprev, hnext⟩ := h.node_around
  unfold prev? next?
  rw [hnode]
  exact ⟨hprev, hnext⟩

/-- The node that `next` leads to leads back. -/
theorem prev?_of_next? (h : r.Chained order) (hmem : (i, s) ∈ order)
    (hnext : r.next? i = some j) : r.prev? j = some i := by
  obtain ⟨before, after, rfl⟩ := List.append_of_mem hmem
  rw [h.links_around.2] at hnext
  cases after with
  | nil => cases hnext
  | cons spot rest =>
    obtain ⟨k, t⟩ := spot
    cases hnext
    rw [← List.singleton_append, ← List.append_assoc] at h
    rw [h.links_around.1, lastOf_append]
    rfl

/-- The node that `prev` leads to leads on. -/
theorem next?_of_prev? (h : r.Chained order) (hmem : (j, s) ∈ order)
    (hprev : r.prev? j = some i) : r.next? i = some j := by
  obtain ⟨before, after, rfl⟩ := List.append_of_mem hmem
  rw [h.links_around.1] at hprev
  rcases List.eq_nil_or_concat' before with rfl | ⟨front, ⟨k, t⟩, rfl⟩
  · cases hprev
  · rw [lastOf_append] at hprev
    cases hprev
    rw [List.append_assoc] at h
    exact h.links_around.2

theorem head_first (h : r.Chained order) (hhead : r.head = some i) : r.prev? i = none := by
  rw [h.head] at hhead
  cases order with
  | nil => cases hhead
  | cons spot rest =>
    obtain ⟨k, t⟩ := spot
    cases hhead
    have haround : r.Chained ([] ++ (k, t) :: rest) := h
    exact haround.links_around.1

theorem tail_last (h : r.Chained order) (htail : r.tail = some i) : r.next? i = none := by
  rw [h.tail] at htail
  rcases List.eq_nil_or_concat' order with rfl | ⟨front, ⟨k, t⟩, rfl⟩
  · cases htail
  · rw [lastOf_append] at htail
    cases htail
    exact h.links_around.2

theorem path_eq (h : r.Chained order) : r.path = order.map (·.1) := by
  unfold path
  rw [h.head]
  exact r.follow_of_linked h.linked h.length_le

end Chained

namespace Keeps

variable {r : Recency} {c : Contents V} {order : List Spot} {i : Nat} {s : Serial}

theorem tenant?_eq_some (h : r.Keeps c order) : r.tenant? i = some s ↔ (i, s) ∈ order := by
  unfold tenant?
  rw [Option.bind_eq_some_iff]
  constructor
  · rintro ⟨node, hnode, hentry⟩
    exact h.occupied i node s hnode hentry
  · exact h.node_of_mem

theorem isSome_tenant? (h : r.Keeps c order) : (r.tenant? i).isSome ↔ i ∈ order.map (·.1) := by
  rw [Option.isSome_iff_exists, List.mem_map]
  constructor
  · rintro ⟨s, hs⟩
    exact ⟨(i, s), h.tenant?_eq_some.mp hs, rfl⟩
  · rintro ⟨⟨j, s⟩, hmem, rfl⟩
    exact ⟨s, h.tenant?_eq_some.mpr hmem⟩

theorem links_of_vacant (h : r.Keeps c order) (hnone : r.tenant? i = none) :
    r.prev? i = none ∧ r.next? i = none := by
  unfold tenant? at hnone
  unfold prev? next?
  cases hnode : r.nodes[i]? with
  | none => exact ⟨rfl, rfl⟩
  | some node =>
    rw [hnode, Option.bind_some] at hnone
    exact h.free_alone i node hnode hnone

/-- A node with a neighbour is on the chain. -/
theorem mem_of_link (h : r.Keeps c order) {j : Nat}
    (hlink : r.prev? i = some j ∨ r.next? i = some j) : ∃ s, (i, s) ∈ order := by
  cases htenant : r.tenant? i with
  | none =>
    obtain ⟨hprev, hnext⟩ := h.links_of_vacant htenant
    rw [hprev, hnext] at hlink
    simp at hlink
  | some s => exact ⟨s, h.tenant?_eq_some.mp htenant⟩

theorem lt_of_link (h : r.Keeps c order) {j : Nat}
    (hlink : r.next? j = some i ∨ r.prev? j = some i) : i < r.nodes.size := by
  obtain ⟨s, hmem⟩ := h.mem_of_link hlink.symm
  have hback : ∃ t, (i, t) ∈ order := by
    rcases hlink with hnext | hprev
    · exact h.mem_of_link (Or.inl (h.prev?_of_next? hmem hnext))
    · exact h.mem_of_link (Or.inr (h.next?_of_prev? hmem hprev))
  obtain ⟨t, ht⟩ := hback
  exact h.lt_of_mem ht

theorem size_eq_countP (h : r.Keeps c order) :
    r.size = (List.range r.nodes.size).countP fun i => (r.tenant? i).isSome := by
  have hperm : ((List.range r.nodes.size).filter fun i => (r.tenant? i).isSome).Perm
      (order.map (·.1)) := by
    rw [List.perm_ext_iff_of_nodup (List.nodup_range.filter _) h.nodup]
    intro i
    rw [List.mem_filter, h.isSome_tenant?, List.mem_range]
    refine ⟨fun hin => hin.2, fun hin => ⟨?_, hin⟩⟩
    obtain ⟨⟨j, s⟩, hmem, rfl⟩ := List.mem_map.mp hin
    exact h.lt_of_mem hmem
  rw [List.countP_eq_length_filter, hperm.length_eq, List.length_map, h.size_eq]

theorem mem_free_iff (h : r.Keeps c order) : i ∈ r.free ↔ i < r.nodes.size ∧ r.tenant? i = none := by
  rw [h.mem_free]
  unfold tenant?
  constructor
  · rintro ⟨node, hnode, hnone⟩
    rw [hnode]
    exact ⟨(Array.getElem?_eq_some_iff.mp hnode).1, hnone⟩
  · rintro ⟨hlt, hnone⟩
    have hnode := Array.getElem?_eq_getElem hlt
    rw [hnode] at hnone
    exact ⟨_, hnode, hnone⟩

/-- The word of an entry is that of the node which the entry occupies. -/
theorem ofWord?_iff (h : r.Keeps c order) {e : Entry V} {node : Node} (he : c.entry? s = some e)
    (hnode : r.nodes[i]? = some node) :
    Handle.ofWord? e.node = some { index := UInt32.ofNat i, generation := node.generation } ↔
      node.entry = some s := by
  have hhandle : c.handle? s = Handle.ofWord? e.node := by
    unfold Contents.handle? Entry.handle?
    rw [he, Option.bind_some]
  rw [← hhandle]
  constructor
  · intro heq
    have hlt : i < r.nodes.size := (Array.getElem?_eq_some_iff.mp hnode).1
    by_cases hout : ∀ j, (j, s) ∉ order
    · rw [h.handle?_of_not_mem hout] at heq
      cases heq
    · obtain ⟨j, hmem⟩ := not_forall_not.mp hout
      obtain ⟨other, hother, hentry⟩ := h.node_of_mem hmem
      obtain ⟨_, _, hplace⟩ := h.handle?_of_mem hmem
      rw [hplace, Option.some.injEq, Handle.mk.injEq] at heq
      have hindex := congrArg UInt32.toNat heq.1
      rw [toNat_index (Nat.lt_of_succ_lt (h.index_lt hmem)), toNat_index (hlt.trans h.fits)]
        at hindex
      rw [hindex, hnode] at hother
      cases hother
      exact hentry
  · intro hentry
    obtain ⟨other, hother, hplace⟩ := h.handle?_of_mem (h.occupied i node s hnode hentry)
    rw [hnode] at hother
    cases hother
    exact hplace

theorem wellLaid (h : r.Keeps c order) : r.WellLaid c where
  ends fuel hfuel := by
    rw [h.head, r.follow_of_linked h.linked (h.length_le.trans hfuel), h.path_eq]
  path_nodup := by
    rw [h.path_eq]
    exact h.nodup
  mem_path i := by rw [h.path_eq, h.isSome_tenant?]
  tail := by rw [h.path_eq, getLast?_map_of_lastOf, h.tail]
  prev_iff i j := by
    constructor
    · intro hprev
      obtain ⟨_, hmem⟩ := h.mem_of_link (Or.inl hprev)
      exact h.next?_of_prev? hmem hprev
    · intro hnext
      obtain ⟨_, hmem⟩ := h.mem_of_link (Or.inr hnext)
      exact h.prev?_of_next? hmem hnext
  head_first i := h.head_first
  tail_last i := h.tail_last
  in_range i := by
    rintro (hhead | htail | hfree | ⟨j, hlink⟩)
    · exact h.head_lt hhead
    · exact h.tail_lt htail
    · exact (h.mem_free_iff.mp hfree).1
    · exact h.lt_of_link hlink
  size_eq := h.size_eq_countP
  free_nodup := h.free_nodup
  mem_free i := h.mem_free_iff
  free_alone i := h.links_of_vacant
  tenant_made i s htenant := by
    obtain ⟨_, e, _, he, _⟩ := h.word i s (h.tenant?_eq_some.mp htenant)
    exact ⟨e, he⟩
  word s e i node := h.ofWord?_iff
  unlinked s e he hout := by
    have hword := h.word_of_not_mem s e he fun i hmem => hout i (h.tenant?_eq_some.mpr hmem)
    rw [hword]
    rfl

end Keeps

end Recency

namespace Shelf

variable {V : Type}

/-- Whatever is asked of a recency list and done to the slots meanwhile, no lookup fails on the way,
and afterwards the arena is laid out as one chain of occupied nodes beside the free ones. -/
theorem well_laid {n capacity : Nat} {c : Contents V} (hc : Contents.withShards n = .ok c)
    {requests : List (Request V Handle)} {answers : List (Option Serial)} {s : Shelf V}
    (hrun : (Shelf.mk (.withCapacity capacity) c).run requests = (answers, s))
    (hfits : (0 < capacity ∧ capacity < Recency.maxPlaces) ∨
      s.recency.nodes.size < Recency.maxPlaces) :
    (Shelf.mk (.withCapacity capacity) c).run? requests = some (answers, s) ∧
    s.recency.keys? s.contents = some (s.recency.keys s.contents) ∧
    s.recency.WellLaid s.contents := by
  have hfitting := fitting_run requests (by rwa [hrun])
  have hstart := sound_start hc capacity
  have hsound := (hstart.run requests hfitting).1
  have hchecked := hstart.run? requests hfitting
  rw [hrun] at hsound hchecked
  obtain ⟨order, hkeeps⟩ := hsound.keeps
  exact ⟨hchecked, hkeeps.keys?, hkeeps.wellLaid⟩

/-- With room for two entries, `c` takes the node of `a`, and `d` that of `b`; then `c` is used. -/
theorem well_laid_reused :
    ∃ (c : Contents Nat) (s : Shelf Nat),
      (Shelf.mk (.withCapacity 2) c).run? [.put "a" 1 none, .add 0, .put "b" 2 none, .add 1,
          .put "c" 3 none, .add 2, .remove 1, .put "d" 4 none, .add 3, .add 2] =
        some ([none, none, none, none, none, some 0, some 1, none, none, none], s) ∧
      s.recency.keys? s.contents = some ["c", "d"] ∧ s.recency.WellLaid s.contents := by
  obtain ⟨c, hc⟩ : ∃ c : Contents Nat, Contents.withShards 4 = .ok c := ⟨_, rfl⟩
  let requests : List (Request Nat Handle) := [.put "a" 1 none, .add 0, .put "b" 2 none, .add 1,
    .put "c" 3 none, .add 2, .remove 1, .put "d" 4 none, .add 3, .add 2]
  obtain ⟨answers, s, hrun⟩ : ∃ answers s,
    (Shelf.mk (.withCapacity 2) c).run requests = (answers, s) := ⟨_, _, rfl⟩
  obtain ⟨hchecked, hkeys, hlaid⟩ := well_laid hc hrun (Or.inl (by decide))
  -- The plain list tells the answers and the keys.
  have hfitting : ((Shelf.mk (.withCapacity 2) c).run requests).2.recency.Fitting :=
    fitting_run requests (Or.inl (by decide))
  obtain ⟨hsound, hranked⟩ := (sound_start hc 2).run requests hfitting
  have hnamed : (Shelf.mk (.withCapacity 2) c).named requests = [.put "a" 1 none, .add 0,
    .put "b" 2 none, .add 1, .put "c" 3 none, .add 2, .remove 1, .put "d" 4 none, .add 3,
    .add 2] := rfl
  rw [hrun] at hsound hranked
  rw [hnamed, ranking_start hc] at hranked
  have hanswers : answers = [none, none, none, none, none, some 0, some 1, none, none, none] :=
    (congrArg Prod.fst hranked).symm
  have hranking : _ = s.ranking := congrArg Prod.snd hranked
  have hlisted : s.recency.keys s.contents = ["c", "d"] := by
    apply List.map_injective_iff.mpr (Option.some_injective _)
    rw [hsound.keys_eq, ← ranking_listed, ← hranking]
    rfl
  exact ⟨c, s, hanswers ▸ hchecked, hlisted ▸ hkeys, hlaid⟩

end Shelf

end TimedCache
