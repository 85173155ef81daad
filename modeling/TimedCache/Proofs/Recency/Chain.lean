import Mathlib.Data.List.Nodup
import Mathlib.Tactic
import TimedCache.Recency

/-!
The chain of the recency list. A chain is described by the list of its places, each with the entry
that sits there; taking a node out of it and putting one in front of it are then what they are for
lists. Both leave the entries and the generations of all nodes alone.
-/

namespace TimedCache

namespace Recency

/-- A place of the arena and the entry that sits there. -/
abbrev Spot := Nat × Serial

/-- The place that a chain starts at; an empty one starts where it goes on. -/
def firstOf : List Spot → Option Nat → Option Nat
  | [], next => next
  | spot :: _, _ => some spot.1

/-- The place that a chain ends at; an empty one ends where it comes from. -/
def lastOf : Option Nat → List Spot → Option Nat
  | prev, [] => prev
  | _, spot :: rest => lastOf (some spot.1) rest

/-- The nodes of some spots are chained in their order, between the node before and the node
after them. -/
def Linked (nodes : Array Node) : Option Nat → List Spot → Option Nat → Prop
  | _, [], _ => True
  | prev, (i, s) :: rest, next =>
    (∃ node, nodes[i]? = some node ∧ node.entry = some s ∧ node.prev = prev ∧
      node.next = firstOf rest next) ∧ Linked nodes (some i) rest next

theorem firstOf_append (before after : List Spot) (next : Option Nat) :
    firstOf (before ++ after) next = firstOf before (firstOf after next) := by
  cases before <;> rfl

theorem lastOf_append (before after : List Spot) (prev : Option Nat) :
    lastOf prev (before ++ after) = lastOf (lastOf prev before) after := by
  induction before generalizing prev with
  | nil => rfl
  | cons spot rest ih => exact ih (some spot.1)

/-- Where a chain ends is a matter of its own places, once it has any. -/
theorem lastOf_eq_some {l : List Spot} (h : l ≠ []) (prev : Option Nat) :
    ∃ spot ∈ l, lastOf prev l = some spot.1 := by
  induction l generalizing prev with
  | nil => exact absurd rfl h
  | cons spot rest ih =>
    cases rest with
    | nil => exact ⟨spot, by simp, rfl⟩
    | cons second more =>
      obtain ⟨last, hmem, hlast⟩ := ih (by simp) (some spot.1)
      exact ⟨last, List.mem_cons_of_mem _ hmem, hlast⟩

theorem lastOf_congr {l : List Spot} (h : l ≠ []) (prev other : Option Nat) :
    lastOf prev l = lastOf other l := by
  cases l with
  | nil => exact absurd rfl h
  | cons spot rest => rfl

namespace Linked

variable {nodes nodes' : Array Node} {l : List Spot} {prev next : Option Nat}

theorem append (before after : List Spot) :
    Linked nodes prev (before ++ after) next ↔
      Linked nodes prev before (firstOf after next) ∧
        Linked nodes (lastOf prev before) after next := by
  induction before generalizing prev with
  | nil => simp [Linked, lastOf]
  | cons spot rest ih =>
    obtain ⟨i, s⟩ := spot
    simp only [List.cons_append, Linked, lastOf, ih, firstOf_append, and_assoc]

theorem node_of_mem (h : Linked nodes prev l next) {i : Nat} {s : Serial} (hmem : (i, s) ∈ l) :
    ∃ node, nodes[i]? = some node ∧ node.entry = some s := by
  induction l generalizing prev with
  | nil => simp at hmem
  | cons spot rest ih =>
    obtain ⟨j, t⟩ := spot
    obtain ⟨⟨node, hnode, hentry, _⟩, hrest⟩ := h
    rcases List.mem_cons.mp hmem with heq | hmem
    · cases heq
      exact ⟨node, hnode, hentry⟩
    · exact ih hrest hmem

/-- A chain only depends on its own nodes. -/
theorem congr (h : Linked nodes prev l next)
    (hsame : ∀ spot ∈ l, nodes'[spot.1]? = nodes[spot.1]?) : Linked nodes' prev l next := by
  induction l generalizing prev with
  | nil => trivial
  | cons spot rest ih =>
    obtain ⟨⟨node, hnode, hfields⟩, hrest⟩ := h
    refine ⟨⟨node, ?_, hfields⟩, ih hrest fun other hother => hsame other (by simp [hother])⟩
    exact (hsame spot (by simp)).trans hnode

/-- Changing where the last node goes on changes where the chain goes on. -/
theorem setNext (h : Linked nodes prev l next) (hnodup : (l.map (·.1)).Nodup)
    {after : Option Nat}
    (hlast : ∀ i node, lastOf none l = some i → nodes[i]? = some node →
      nodes'[i]? = some { node with next := after })
    (hother : ∀ spot ∈ l, lastOf none l ≠ some spot.1 → nodes'[spot.1]? = nodes[spot.1]?) :
    Linked nodes' prev l after := by
  induction l generalizing prev with
  | nil => trivial
  | cons spot rest ih =>
    obtain ⟨i, s⟩ := spot
    obtain ⟨⟨node, hnode, hentry, hprev, hnext⟩, hrest⟩ := h
    cases rest with
    | nil => exact ⟨⟨{ node with next := after }, hlast i node rfl hnode, hentry, hprev, rfl⟩, trivial⟩
    | cons second more =>
      have hcongr : lastOf none ((i, s) :: second :: more) = lastOf none (second :: more) :=
        lastOf_congr (by simp) _ none
      rw [hcongr] at hlast hother
      rw [List.map_cons, List.nodup_cons] at hnodup
      constructor
      · refine ⟨node, ?_, hentry, hprev, hnext⟩
        rw [← hnode]
        apply hother (i, s) (by simp)
        intro heq
        obtain ⟨last, hmem, hlast'⟩ := lastOf_eq_some (l := second :: more) (by simp) none
        rw [heq] at hlast'
        apply hnodup.1
        rw [Option.some.inj hlast']
        exact List.mem_map_of_mem hmem
      · exact ih hrest hnodup.2 hlast fun spot hspot => hother spot (by simp [hspot])

/-- Changing where the first node comes from changes where the chain comes from. -/
theorem setPrev (h : Linked nodes prev l next) (hnodup : (l.map (·.1)).Nodup)
    {before : Option Nat}
    (hfirst : ∀ i node, firstOf l none = some i → nodes[i]? = some node →
      nodes'[i]? = some { node with prev := before })
    (hother : ∀ spot ∈ l, firstOf l none ≠ some spot.1 → nodes'[spot.1]? = nodes[spot.1]?) :
    Linked nodes' before l next := by
  cases l with
  | nil => trivial
  | cons spot rest =>
    obtain ⟨i, s⟩ := spot
    obtain ⟨⟨node, hnode, hentry, hprev, hnext⟩, hrest⟩ := h
    refine ⟨⟨{ node with prev := before }, hfirst i node rfl hnode, hentry, rfl, hnext⟩, ?_⟩
    apply hrest.congr
    intro other hmem
    apply hother other (by simp [hmem])
    rw [List.map_cons, List.nodup_cons] at hnodup
    intro heq
    apply hnodup.1
    rw [Option.some.inj heq]
    exact List.mem_map_of_mem hmem

end Linked

/-! ## Walking the chain -/

theorem walk_of_linked (r : Recency) {l : List Spot} {prev : Option Nat} {fuel : Nat}
    (h : Linked r.nodes prev l none) (hfuel : l.length ≤ fuel) :
    r.walk fuel (firstOf l none) = l.map (·.2) := by
  induction l generalizing prev fuel with
  | nil => cases fuel <;> rfl
  | cons spot rest ih =>
    obtain ⟨i, s⟩ := spot
    obtain ⟨⟨node, hnode, hentry, _, hnext⟩, hrest⟩ := h
    cases fuel with
    | zero => simp at hfuel
    | succ fuel =>
      have htail := ih hrest (Nat.le_of_succ_le_succ hfuel)
      change r.walk (fuel + 1) (some i) = s :: rest.map (·.2)
      rw [walk, hnode]
      dsimp only
      rw [hentry, hnext, htail]
      rfl

/-! ## The whole chain -/

/-- The chain of the list visits some spots, each place once, from its head to its tail. -/
structure Chained (r : Recency) (order : List Spot) : Prop where
  linked : Linked r.nodes none order none
  head : r.head = firstOf order none
  tail : r.tail = lastOf none order
  nodup : (order.map (·.1)).Nodup

namespace Chained

variable {r : Recency} {order : List Spot}

theorem node_of_mem (h : r.Chained order) {i : Nat} {s : Serial} (hmem : (i, s) ∈ order) :
    ∃ node, r.nodes[i]? = some node ∧ node.entry = some s :=
  h.linked.node_of_mem hmem

theorem lt_of_mem (h : r.Chained order) {i : Nat} {s : Serial} (hmem : (i, s) ∈ order) :
    i < r.nodes.size := by
  obtain ⟨node, hnode, _⟩ := h.node_of_mem hmem
  exact (Array.getElem?_eq_some_iff.mp hnode).1

theorem length_le (h : r.Chained order) : order.length ≤ r.nodes.size := by
  have hsub : order.map (·.1) ⊆ List.range r.nodes.size := by
    intro i hi
    obtain ⟨⟨j, s⟩, hmem, rfl⟩ := List.mem_map.mp hi
    exact List.mem_range.mpr (h.lt_of_mem hmem)
  have hlength := (List.subperm_of_subset h.nodup hsub).length_le
  rwa [List.length_map, List.length_range] at hlength

theorem toList_eq (h : r.Chained order) : r.toList = order.map (·.2) := by
  unfold toList
  rw [h.head]
  exact r.walk_of_linked h.linked h.length_le

end Chained

/-! ## Taking a node out -/

/-- What taking a node out does to the nodes. -/
theorem getElem?_nodes_detach {r : Recency} {i : Nat} {node : Node} (h : r.nodes[i]? = some node)
    (j : Nat) :
    (r.detach i).nodes[j]? = r.nodes[j]?.map fun other =>
      { other with
        prev := if j = i then none else if node.next = some j then node.prev else other.prev
        next := if j = i then none else if node.prev = some j then node.next else other.next } := by
  unfold detach
  rw [h]
  obtain ⟨entry, prev, next, generation⟩ := node
  cases hj : r.nodes[j]? with
  | none =>
    cases prev <;> cases next <;> simp [setPrev, setNext, Array.getElem?_modify, hj]
  | some other =>
    obtain ⟨entry', prev', next', generation'⟩ := other
    by_cases hij : i = j
    · subst hij
      cases prev <;> cases next <;> simp [setPrev, setNext, Array.getElem?_modify, hj] <;> grind
    · have hji : ¬ j = i := fun heq => hij heq.symm
      cases prev <;> cases next <;>
        simp [setPrev, setNext, Array.getElem?_modify, hj, hij, hji] <;> grind

theorem detach_frame (r : Recency) (i : Nat) :
    (r.detach i).capacity = r.capacity ∧ (r.detach i).free = r.free ∧
      (r.detach i).size = r.size ∧ (r.detach i).nodes.size = r.nodes.size := by
  unfold detach
  cases r.nodes[i]? with
  | none => exact ⟨rfl, rfl, rfl, rfl⟩
  | some node =>
    obtain ⟨entry, prev, next, generation⟩ := node
    cases prev <;> cases next <;> simp [setPrev, setNext]

theorem detach_ends {r : Recency} {i : Nat} {node : Node} (h : r.nodes[i]? = some node) :
    (r.detach i).head = (if node.prev.isSome then r.head else node.next) ∧
      (r.detach i).tail = (if node.next.isSome then r.tail else node.prev) := by
  unfold detach
  rw [h]
  obtain ⟨entry, prev, next, generation⟩ := node
  cases prev <;> cases next <;> simp [setPrev, setNext]

theorem mem_of_firstOf {l : List Spot} {i : Nat} (h : firstOf l none = some i) :
    ∃ s, (i, s) ∈ l := by
  cases l with
  | nil => cases h
  | cons spot rest =>
    obtain ⟨j, s⟩ := spot
    cases h
    exact ⟨s, by simp⟩

theorem mem_of_lastOf {l : List Spot} {i : Nat} (h : lastOf none l = some i) :
    ∃ s, (i, s) ∈ l := by
  have hne : l ≠ [] := by
    rintro rfl
    cases h
  obtain ⟨⟨j, s⟩, hmem, hlast⟩ := lastOf_eq_some hne none
  rw [h] at hlast
  cases hlast
  exact ⟨s, hmem⟩

/-- Places of a chain before and after one of its nodes, all of them different. -/
theorem nodup_around {before after : List Spot} {i : Nat} {s : Serial}
    (h : ((before ++ (i, s) :: after).map (·.1)).Nodup) :
    (∀ spot ∈ before, spot.1 ≠ i) ∧ (∀ spot ∈ after, spot.1 ≠ i) ∧
      (∀ left ∈ before, ∀ right ∈ after, left.1 ≠ right.1) ∧
      ((before ++ after).map (·.1)).Nodup := by
  simp only [List.map_append, List.map_cons, List.nodup_append, List.nodup_cons, List.mem_map,
    List.mem_cons] at h ⊢
  obtain ⟨hbefore, ⟨hi, hafter⟩, hdisjoint⟩ := h
  refine ⟨?_, ?_, ?_, hbefore, hafter, ?_⟩
  · intro spot hspot
    exact hdisjoint spot.1 ⟨spot, hspot, rfl⟩ i (Or.inl rfl)
  · intro spot hspot heq
    exact hi ⟨spot, hspot, heq⟩
  · intro left hleft right hright
    exact hdisjoint left.1 ⟨left, hleft, rfl⟩ right.1 (Or.inr ⟨right, hright, rfl⟩)
  · intro p hp q hq
    exact hdisjoint p hp q (Or.inr hq)

/-- The other nodes of a chain are at other places. -/
theorem away_around {before after : List Spot} {i : Nat} {s : Serial}
    (h : ((before ++ (i, s) :: after).map (·.1)).Nodup) : ∀ spot ∈ before ++ after, spot.1 ≠ i := by
  obtain ⟨hleft, hright, _, _⟩ := nodup_around h
  intro spot hspot
  rcases List.mem_append.mp hspot with hmem | hmem
  · exact hleft spot hmem
  · exact hright spot hmem

/-- Taking a node out of a chain closes the gap. -/
theorem Chained.detach {r : Recency} {before after : List Spot} {i : Nat} {s : Serial}
    (h : r.Chained (before ++ (i, s) :: after)) : (r.detach i).Chained (before ++ after) := by
  obtain ⟨hbefore, ⟨node, hnode, _, hprev, hnext⟩, hafter⟩ :=
    (Linked.append before ((i, s) :: after)).mp h.linked
  obtain ⟨hleft, hright, hdisjoint, hnodup⟩ := nodup_around h.nodup
  have hnodes := getElem?_nodes_detach hnode
  obtain ⟨hhead, htail⟩ := detach_ends hnode
  have hparts : (before.map (·.1)).Nodup ∧ (after.map (·.1)).Nodup := by
    rw [List.map_append, List.nodup_append] at hnodup
    exact ⟨hnodup.1, hnodup.2.1⟩
  constructor
  · rw [Linked.append]
    constructor
    · have hskip : ∀ spot ∈ before, node.next ≠ some spot.1 := by
        intro spot hspot heq
        obtain ⟨t, ht⟩ := mem_of_firstOf (hnext.symm.trans heq)
        exact hdisjoint spot hspot _ ht rfl
      apply hbefore.setNext hparts.1
      · intro j other hlast hother
        obtain ⟨t, ht⟩ := mem_of_lastOf hlast
        rw [hnodes, hother, Option.map_some, if_neg (hleft _ ht), if_neg (hskip _ ht),
          if_neg (hleft _ ht), hprev, if_pos hlast, hnext]
      · intro spot hspot hne
        obtain ⟨other, hother, _⟩ := hbefore.node_of_mem hspot
        rw [hnodes, hother, Option.map_some, if_neg (hleft _ hspot), if_neg (hskip _ hspot),
          if_neg (hleft _ hspot), hprev, if_neg hne]
    · have hskip : ∀ spot ∈ after, node.prev ≠ some spot.1 := by
        intro spot hspot heq
        obtain ⟨t, ht⟩ := mem_of_lastOf (hprev.symm.trans heq)
        exact hdisjoint _ ht spot hspot rfl
      apply hafter.setPrev hparts.2
      · intro j other hfirst hother
        obtain ⟨t, ht⟩ := mem_of_firstOf hfirst
        rw [hnodes, hother, Option.map_some, if_neg (hright _ ht), if_neg (hright _ ht),
          if_neg (hskip _ ht), hnext, if_pos hfirst, hprev]
      · intro spot hspot hne
        obtain ⟨other, hother, _⟩ := hafter.node_of_mem hspot
        rw [hnodes, hother, Option.map_some, if_neg (hright _ hspot), if_neg (hright _ hspot),
          if_neg (hskip _ hspot), hnext, if_neg hne]
  · rw [hhead, hprev, hnext, h.head]
    cases before with
    | nil => rfl
    | cons spot rest =>
      obtain ⟨last, _, hlast⟩ := lastOf_eq_some (l := spot :: rest) (by simp) none
      rw [hlast]
      rfl
  · rw [htail, hprev, hnext, h.tail, lastOf_append, lastOf_append]
    cases after with
    | nil => rfl
    | cons spot rest => rfl
  · exact hnodup

/-- Taking a node out leaves the nodes outside of the chain alone. -/
theorem Chained.getElem?_detach {r : Recency} {before after : List Spot} {i j : Nat} {s : Serial}
    (h : r.Chained (before ++ (i, s) :: after))
    (hout : ∀ spot ∈ before ++ (i, s) :: after, spot.1 ≠ j) :
    (r.detach i).nodes[j]? = r.nodes[j]? := by
  obtain ⟨_, ⟨node, hnode, _, hprev, hnext⟩, _⟩ :=
    (Linked.append before ((i, s) :: after)).mp h.linked
  have hi : j ≠ i := fun heq => hout (i, s) (by simp) heq.symm
  have hskipNext : node.next ≠ some j := by
    intro heq
    obtain ⟨t, ht⟩ := mem_of_firstOf (hnext.symm.trans heq)
    exact hout (j, t) (by simp [ht]) rfl
  have hskipPrev : node.prev ≠ some j := by
    intro heq
    obtain ⟨t, ht⟩ := mem_of_lastOf (hprev.symm.trans heq)
    exact hout (j, t) (by simp [ht]) rfl
  rw [getElem?_nodes_detach hnode]
  cases r.nodes[j]? with
  | none => rfl
  | some other => rw [Option.map_some, if_neg hi, if_neg hskipNext, if_neg hi, if_neg hskipPrev]

/-! ## Putting a node in front -/

theorem getElem?_nodes_attachFront (r : Recency) {i : Nat} (h : r.head ≠ some i) (j : Nat) :
    (r.attachFront i).nodes[j]? = r.nodes[j]?.map fun other =>
      { other with
        prev := if j = i then none else if r.head = some j then some i else other.prev
        next := if j = i then r.head else other.next } := by
  unfold attachFront
  cases hj : r.nodes[j]? with
  | none =>
    cases hhead : r.head <;> simp [setPrev, setNext, Array.getElem?_modify, hj]
  | some other =>
    obtain ⟨entry', prev', next', generation'⟩ := other
    by_cases hij : i = j
    · subst hij
      cases hhead : r.head with
      | none => simp [setPrev, setNext, Array.getElem?_modify, hj]
      | some first =>
        simp [setPrev, setNext, Array.getElem?_modify, hj]
        grind
    · have hji : ¬ j = i := fun heq => hij heq.symm
      cases hhead : r.head with
      | none => simp [setPrev, setNext, Array.getElem?_modify, hj, hij, hji]
      | some first =>
        simp [setPrev, setNext, Array.getElem?_modify, hj, hij, hji]
        grind

theorem attachFront_frame (r : Recency) (i : Nat) :
    (r.attachFront i).capacity = r.capacity ∧ (r.attachFront i).free = r.free ∧
      (r.attachFront i).size = r.size ∧ (r.attachFront i).nodes.size = r.nodes.size := by
  unfold attachFront
  cases r.head <;> simp [setPrev, setNext]

theorem attachFront_ends (r : Recency) (i : Nat) :
    (r.attachFront i).head = some i ∧ (r.attachFront i).tail = r.tail.or (some i) := by
  unfold attachFront
  cases r.head <;> simp [setPrev, setNext]

/-- Putting a node in front of a chain that it is not part of. -/
theorem Chained.attachFront {r : Recency} {order : List Spot} {i : Nat} {s : Serial} {node : Node}
    (h : r.Chained order) (hnode : r.nodes[i]? = some node) (hentry : node.entry = some s)
    (hout : ∀ spot ∈ order, spot.1 ≠ i) : (r.attachFront i).Chained ((i, s) :: order) := by
  have hhead : r.head ≠ some i := by
    intro heq
    obtain ⟨t, ht⟩ := mem_of_firstOf (h.head.symm.trans heq)
    exact hout _ ht rfl
  have hnodes := getElem?_nodes_attachFront r hhead
  obtain ⟨hfirst, hlast⟩ := attachFront_ends r i
  have hself := hnodes i
  rw [hnode, Option.map_some, if_pos rfl, if_pos rfl] at hself
  constructor
  · constructor
    · exact ⟨_, hself, hentry, rfl, h.head⟩
    · apply h.linked.setPrev h.nodup
      · intro j other hj hother
        obtain ⟨t, ht⟩ := mem_of_firstOf hj
        rw [hnodes, hother, Option.map_some, if_neg (hout _ ht), if_neg (hout _ ht), h.head,
          if_pos hj]
      · intro spot hspot hne
        obtain ⟨other, hother, _⟩ := h.linked.node_of_mem hspot
        rw [hnodes, hother, Option.map_some, if_neg (hout _ hspot), if_neg (hout _ hspot), h.head,
          if_neg hne]
  · exact hfirst
  · rw [hlast, h.tail]
    cases order with
    | nil => rfl
    | cons spot rest =>
      obtain ⟨last, _, heq⟩ := lastOf_eq_some (l := spot :: rest) (by simp) none
      rw [heq]
      exact heq.symm
  · rw [List.map_cons, List.nodup_cons]
    refine ⟨?_, h.nodup⟩
    intro hmem
    obtain ⟨spot, hspot, heq⟩ := List.mem_map.mp hmem
    exact hout spot hspot heq

theorem Chained.getElem?_attachFront {r : Recency} {order : List Spot} {i j : Nat}
    (h : r.Chained order) (hi : ∀ spot ∈ order, spot.1 ≠ i)
    (hout : ∀ spot ∈ order, spot.1 ≠ j) (hj : j ≠ i) :
    (r.attachFront i).nodes[j]? = r.nodes[j]? := by
  have hfirst (k : Nat) (hk : ∀ spot ∈ order, spot.1 ≠ k) : r.head ≠ some k := by
    intro heq
    obtain ⟨t, ht⟩ := mem_of_firstOf (h.head.symm.trans heq)
    exact hk _ ht rfl
  rw [getElem?_nodes_attachFront r (hfirst i hi)]
  cases r.nodes[j]? with
  | none => rfl
  | some other => rw [Option.map_some, if_neg hj, if_neg (hfirst j hout), if_neg hj]

/-! ## Moving a node to the front -/

/-- What chaining leaves alone of a node. -/
def core (node : Node) : Option Serial × UInt32 := (node.entry, node.generation)

theorem exists_of_core_eq {nodes nodes' : Array Node} {j : Nat} {node : Node}
    (h : (nodes'[j]?).map core = (nodes[j]?).map core) (hnode : nodes'[j]? = some node) :
    ∃ old, nodes[j]? = some old ∧ old.entry = node.entry ∧ old.generation = node.generation := by
  rw [hnode, Option.map_some] at h
  obtain ⟨old, hold, hsame⟩ := Option.map_eq_some_iff.mp h.symm
  exact ⟨old, hold, congrArg Prod.fst hsame, congrArg Prod.snd hsame⟩

/-- Chaining does not turn a free place into an occupied one, nor the other way round. -/
theorem free_iff_of_core_eq {nodes nodes' : Array Node} {j : Nat}
    (h : (nodes'[j]?).map core = (nodes[j]?).map core) :
    (∃ node, nodes'[j]? = some node ∧ node.entry = none) ↔
      ∃ node, nodes[j]? = some node ∧ node.entry = none := by
  constructor
  · rintro ⟨node, hnode, hnone⟩
    obtain ⟨old, hold, hsame, _⟩ := exists_of_core_eq h hnode
    exact ⟨old, hold, hsame.trans hnone⟩
  · rintro ⟨old, hold, hnone⟩
    obtain ⟨node, hnode, hsame, _⟩ := exists_of_core_eq h.symm hold
    exact ⟨node, hnode, hsame.trans hnone⟩

theorem core_detach {r : Recency} {i : Nat} {node : Node} (h : r.nodes[i]? = some node) (j : Nat) :
    ((r.detach i).nodes[j]?).map core = (r.nodes[j]?).map core := by
  rw [getElem?_nodes_detach h]
  cases r.nodes[j]? <;> rfl

theorem core_modify (nodes : Array Node) (i j : Nat) {f : Node → Node}
    (h : ∀ node, core (f node) = core node) :
    ((nodes.modify i f)[j]?).map core = (nodes[j]?).map core := by
  rw [Array.getElem?_modify]
  split
  · cases nodes[j]? <;> simp [h]
  · rfl

theorem core_setPrev (r : Recency) (i j : Nat) (prev : Option Nat) :
    ((r.setPrev i prev).nodes[j]?).map core = (r.nodes[j]?).map core :=
  core_modify r.nodes i j fun _ => rfl

theorem core_setNext (r : Recency) (i j : Nat) (next : Option Nat) :
    ((r.setNext i next).nodes[j]?).map core = (r.nodes[j]?).map core :=
  core_modify r.nodes i j fun _ => rfl

theorem core_attachFront (r : Recency) (i j : Nat) :
    ((r.attachFront i).nodes[j]?).map core = (r.nodes[j]?).map core := by
  unfold attachFront
  cases r.head with
  | none => exact (core_setNext _ i j none).trans (core_setPrev r i j none)
  | some first =>
    refine (core_setPrev _ first j (some i)).trans ?_
    exact (core_setNext _ i j (some first)).trans (core_setPrev r i j none)

theorem Chained.moveToFront {r : Recency} {before after : List Spot} {i : Nat} {s : Serial}
    (h : r.Chained (before ++ (i, s) :: after)) :
    (r.moveToFront i).Chained ((i, s) :: (before ++ after)) := by
  unfold Recency.moveToFront
  split
  · rename_i hhead
    cases before with
    | nil => exact h
    | cons spot rest =>
      have hfirst := h.head
      rw [hhead] at hfirst
      have heq : spot.1 = i := (Option.some.inj hfirst).symm
      exact absurd heq ((nodup_around h.nodup).1 spot (by simp))
  · obtain ⟨node, hnode, hentry⟩ := h.node_of_mem (i := i) (s := s) (by simp)
    obtain ⟨moved, hmoved, hsame, _⟩ := exists_of_core_eq (core_detach hnode i).symm hnode
    exact h.detach.attachFront hmoved (hsame.trans hentry) (away_around h.nodup)

theorem core_moveToFront {r : Recency} {order : List Spot} {i : Nat} {s : Serial}
    (h : r.Chained order) (hmem : (i, s) ∈ order) (j : Nat) :
    ((r.moveToFront i).nodes[j]?).map core = (r.nodes[j]?).map core := by
  unfold moveToFront
  split
  · rfl
  · obtain ⟨before, after, rfl⟩ := List.append_of_mem hmem
    obtain ⟨node, hnode, _⟩ := h.node_of_mem hmem
    rw [core_attachFront, core_detach hnode]

theorem Chained.getElem?_moveToFront {r : Recency} {before after : List Spot} {i j : Nat}
    {s : Serial} (h : r.Chained (before ++ (i, s) :: after))
    (hout : ∀ spot ∈ before ++ (i, s) :: after, spot.1 ≠ j) :
    (r.moveToFront i).nodes[j]? = r.nodes[j]? := by
  unfold Recency.moveToFront
  split
  · rfl
  · rw [h.detach.getElem?_attachFront (away_around h.nodup), h.getElem?_detach hout]
    · intro spot hspot
      rcases List.mem_append.mp hspot with hmem | hmem
      · exact hout spot (by simp [hmem])
      · exact hout spot (by simp [hmem])
    · intro heq
      exact hout (i, s) (by simp) heq.symm

theorem moveToFront_frame (r : Recency) (i : Nat) :
    (r.moveToFront i).capacity = r.capacity ∧ (r.moveToFront i).free = r.free ∧
      (r.moveToFront i).size = r.size ∧ (r.moveToFront i).nodes.size = r.nodes.size := by
  unfold moveToFront
  split
  · exact ⟨rfl, rfl, rfl, rfl⟩
  · obtain ⟨hcapacity, hfree, hsize, hnodes⟩ := attachFront_frame (r.detach i) i
    obtain ⟨hcapacity', hfree', hsize', hnodes'⟩ := detach_frame r i
    exact ⟨hcapacity.trans hcapacity', hfree.trans hfree', hsize.trans hsize',
      hnodes.trans hnodes'⟩

end Recency

end TimedCache
