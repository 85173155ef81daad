import TimedCache.Proofs.Recency.Ranking

/-!
The operations of the recency list with every lookup that could fail made to fail. An index outside
of the arena, an empty node where one is to be freed, a count below zero or a chain without an end
leaves such an operation without a result. On a list that keeps its entries none of this happens:
each operation has a result, which is that of the plain one.
-/

namespace TimedCache

namespace Recency

variable {V : Type}

/-! ## Operations that can fail -/

def setPrev? (r : Recency) (i : Nat) (prev : Option Nat) : Option Recency :=
  if i < r.nodes.size then some (r.setPrev i prev) else none

def setNext? (r : Recency) (i : Nat) (next : Option Nat) : Option Recency :=
  if i < r.nodes.size then some (r.setNext i next) else none

def detach? (r : Recency) (i : Nat) : Option Recency := do
  let node ← r.nodes[i]?
  let r ← match node.prev with
    | some p => r.setNext? p node.next
    | none => some { r with head := node.next }
  let r ← match node.next with
    | some n => r.setPrev? n node.prev
    | none => some { r with tail := node.prev }
  let r ← r.setPrev? i none
  r.setNext? i none

def attachFront? (r : Recency) (i : Nat) : Option Recency := do
  let old := r.head
  let r ← r.setPrev? i none
  let r ← r.setNext? i old
  let r ← match old with
    | some h => r.setPrev? h (some i)
    | none => some r
  some { r with head := some i, tail := r.tail.or (some i) }

def moveToFront? (r : Recency) (i : Nat) : Option Recency :=
  if r.head = some i then some r
  else do
    let r ← r.detach? i
    r.attachFront? i

/-- A new node needs an index that a handle can hold. -/
def allocate? (r : Recency) (s : Serial) : Option (Handle × Recency) :=
  match r.free with
  | i :: _ => if i < r.nodes.size then some (r.allocate s) else none
  | [] => if r.nodes.size < maxPlaces then some (r.allocate s) else none

def release? (r : Recency) (c : Contents V) (i : Nat) :
    Option (Serial × Recency × Contents V) := do
  let r ← r.detach? i
  let node ← r.nodes[i]?
  let s ← node.entry
  if 0 < r.size then
    some (s, { r with nodes := r.nodes.modify i freed, free := i :: r.free, size := r.size - 1 },
      c.unlink s)
  else none

/-- A loop that does not stop within the fuel fails, too. -/
def evict? (r : Recency) (c : Contents V) : Nat → Option (Option Serial × Recency × Contents V)
  | 0 => none
  | fuel + 1 =>
    if r.size < r.capacity then some (none, r, c)
    else
      match r.tail with
      | none => some (none, r, c)
      | some i => do
        let (s, r, c) ← r.release? c i
        match c.vacate s with
        | (true, c) => some (some s, r, c)
        | (false, c) => evict? r c fuel

def makeRoom? (r : Recency) (c : Contents V) : Option (Option Serial × Recency × Contents V) :=
  if 0 < r.capacity ∧ r.capacity ≤ r.size then r.evict? c (r.size + 1) else some (none, r, c)

def add? (r : Recency) (c : Contents V) (s : Serial) :
    Option (Option Serial × Recency × Contents V) :=
  match (c.handle? s).bind r.resolve? with
  | some i => do
    let r ← r.moveToFront? i
    some (none, r, c)
  | none =>
    if c.occupies s then do
      let (evicted, r, c) ← r.makeRoom? c
      let (h, r) ← r.allocate? s
      let r ← r.attachFront? h.index.toNat
      some (evicted, { r with size := r.size + 1 }, c.link s h)
    else some (none, r, c)

def hit? (r : Recency) (h : Handle) : Option Recency :=
  match r.resolve? h with
  | some i => r.moveToFront? i
  | none => some r

def hitAll? (r : Recency) : List Handle → Option Recency
  | [] => some r
  | h :: rest => do
    let r ← r.hit? h
    r.hitAll? rest

def remove? (r : Recency) (c : Contents V) (s : Serial) :
    Option (Option Serial × Recency × Contents V) :=
  let c := (c.vacate s).2
  match (c.handle? s).bind r.resolve? with
  | some i => do
    let (s, r, c) ← r.release? c i
    some (some s, r, c)
  | none => some (none, r, c)

/-- A chain that does not end within the fuel has no walk. -/
def walk? (r : Recency) : Nat → Option Nat → Option (List Serial)
  | _, none => some []
  | 0, some _ => none
  | fuel + 1, some i => do
    let node ← r.nodes[i]?
    let rest ← r.walk? fuel node.next
    some (node.entry.toList ++ rest)

def keys? (r : Recency) (c : Contents V) : Option (List String) := do
  let serials ← r.walk? r.nodes.size r.head
  some (serials.filterMap fun s => (c.entry? s).map (·.key))

/-! ## Chaining -/

theorem size_nodes_setPrev (r : Recency) (i : Nat) (prev : Option Nat) :
    (r.setPrev i prev).nodes.size = r.nodes.size :=
  Array.size_modify

theorem size_nodes_setNext (r : Recency) (i : Nat) (next : Option Nat) :
    (r.setNext i next).nodes.size = r.nodes.size :=
  Array.size_modify

theorem detach?_eq {r : Recency} {i : Nat} {node : Node} (hnode : r.nodes[i]? = some node)
    (hprev : ∀ p, node.prev = some p → p < r.nodes.size)
    (hnext : ∀ n, node.next = some n → n < r.nodes.size) : r.detach? i = some (r.detach i) := by
  have hlt : i < r.nodes.size := (Array.getElem?_eq_some_iff.mp hnode).1
  unfold detach? detach
  rw [hnode]
  obtain ⟨entry, prev, next, generation⟩ := node
  dsimp only at hprev hnext ⊢
  cases prev with
  | none =>
    cases next with
    | none => simp [setPrev?, setNext?, size_nodes_setPrev, hlt]
    | some n => simp [setPrev?, setNext?, size_nodes_setPrev, hlt, hnext n rfl]
  | some p =>
    have hp := hprev p rfl
    cases next with
    | none => simp [setPrev?, setNext?, size_nodes_setPrev, size_nodes_setNext, hlt, hp]
    | some n =>
      simp [setPrev?, setNext?, size_nodes_setPrev, size_nodes_setNext, hlt, hp, hnext n rfl]

theorem attachFront?_eq {r : Recency} {i : Nat} (hlt : i < r.nodes.size)
    (hhead : ∀ h, r.head = some h → h < r.nodes.size) :
    r.attachFront? i = some (r.attachFront i) := by
  unfold attachFront? attachFront
  cases hh : r.head with
  | none => simp [setPrev?, setNext?, size_nodes_setPrev, hlt]
  | some h =>
    simp [setPrev?, setNext?, size_nodes_setPrev, size_nodes_setNext, hlt, hhead h hh]

/-- A chain is walked to its end within as many steps as it has nodes. -/
theorem walk?_of_linked (r : Recency) {l : List Spot} {prev : Option Nat} {fuel : Nat}
    (h : Linked r.nodes prev l none) (hfuel : l.length ≤ fuel) :
    r.walk? fuel (firstOf l none) = some (l.map (·.2)) := by
  induction l generalizing prev fuel with
  | nil => cases fuel <;> rfl
  | cons spot rest ih =>
    obtain ⟨i, s⟩ := spot
    obtain ⟨⟨node, hnode, hentry, _, hnext⟩, hrest⟩ := h
    cases fuel with
    | zero => simp at hfuel
    | succ fuel =>
      have htail := ih hrest (Nat.le_of_succ_le_succ hfuel)
      change r.walk? (fuel + 1) (some i) = some (s :: rest.map (·.2))
      rw [walk?, hnode, Option.bind_eq_bind, Option.bind_some, hnext, hentry, htail]
      rfl

namespace Chained

variable {r : Recency} {order before after : List Spot} {i : Nat} {s : Serial}

/-- The node of a spot, with its neighbours on the chain. -/
theorem node_around (h : r.Chained (before ++ (i, s) :: after)) :
    ∃ node, r.nodes[i]? = some node ∧ node.entry = some s ∧ node.prev = lastOf none before ∧
      node.next = firstOf after none :=
  ((Linked.append before ((i, s) :: after)).mp h.linked).2.1

theorem lt_of_firstOf (h : r.Chained order) (hsub : ∀ spot ∈ after, spot ∈ order) {j : Nat}
    (hj : firstOf after none = some j) : j < r.nodes.size := by
  obtain ⟨t, ht⟩ := mem_of_firstOf hj
  exact h.lt_of_mem (hsub _ ht)

theorem lt_of_lastOf (h : r.Chained order) (hsub : ∀ spot ∈ before, spot ∈ order) {j : Nat}
    (hj : lastOf none before = some j) : j < r.nodes.size := by
  obtain ⟨t, ht⟩ := mem_of_lastOf hj
  exact h.lt_of_mem (hsub _ ht)

theorem head_lt (h : r.Chained order) {j : Nat} (hj : r.head = some j) : j < r.nodes.size :=
  h.lt_of_firstOf (fun _ hspot => hspot) (h.head.symm.trans hj)

theorem tail_lt (h : r.Chained order) {j : Nat} (hj : r.tail = some j) : j < r.nodes.size :=
  h.lt_of_lastOf (fun _ hspot => hspot) (h.tail.symm.trans hj)

theorem detach? (h : r.Chained (before ++ (i, s) :: after)) :
    r.detach? i = some (r.detach i) := by
  obtain ⟨node, hnode, _, hprev, hnext⟩ := h.node_around
  apply detach?_eq hnode
  · intro p hp
    exact h.lt_of_lastOf (by simp +contextual) (hprev.symm.trans hp)
  · intro n hn
    exact h.lt_of_firstOf (by simp +contextual) (hnext.symm.trans hn)

theorem moveToFront? (h : r.Chained (before ++ (i, s) :: after)) :
    r.moveToFront? i = some (r.moveToFront i) := by
  unfold Recency.moveToFront? Recency.moveToFront
  split
  · rfl
  · rw [h.detach?, Option.bind_eq_bind, Option.bind_some]
    apply attachFront?_eq
    · rw [(detach_frame r i).2.2.2]
      exact h.lt_of_mem (i := i) (s := s) (by simp)
    · intro j hj
      exact h.detach.head_lt hj

end Chained

/-! ## Operations -/

namespace Keeps

variable {r : Recency} {c : Contents V} {order before after : List Spot} {i : Nat} {s : Serial}

theorem release? (h : r.Keeps c (before ++ (i, s) :: after)) :
    r.release? c i = some (s, r.released i, c.unlink s) := by
  obtain ⟨node, hnode, hentry, _, _⟩ := h.node_around
  obtain ⟨moved, hmoved, hsame, _⟩ := exists_of_core_eq (core_detach hnode i).symm hnode
  obtain ⟨_, hfree, hsize, _⟩ := detach_frame r i
  have hpos : 0 < r.size := by
    rw [h.size_eq, List.length_append, List.length_cons]
    omega
  unfold Recency.release? Recency.released
  simp only [h.detach?, Option.bind_eq_bind, Option.bind_some, hmoved, hsame, hentry, hsize, hfree,
    if_pos hpos]

theorem makeRoom? (h : r.Keeps c order) : r.makeRoom? c = some (r.makeRoom c) := by
  have hbound := h.length_le_capacity
  unfold Recency.makeRoom?
  by_cases hfull : 0 < r.capacity ∧ r.capacity ≤ r.size
  · rw [if_pos hfull]
    rw [h.size_eq] at hfull ⊢
    have hne : order ≠ [] := by
      rintro rfl
      simp only [List.length_nil] at hfull
      omega
    obtain ⟨front, ⟨i, victim⟩, rfl⟩ := (List.eq_nil_or_concat' order).resolve_left hne
    rw [List.length_append, List.length_singleton] at hfull hbound
    have htail : r.tail = some i := by
      rw [h.tail, lastOf_append]
      rfl
    have hsize := h.size_eq
    rw [List.length_append, List.length_singleton] at hsize
    have hroom : (r.released i).size < (r.released i).capacity := by
      rw [capacity_released]
      change r.size - 1 < r.capacity
      omega
    -- One round makes room, so the loop stops where the second one would start.
    rw [h.makeRoom_of_full hfull.1 hfull.2, List.length_append, List.length_singleton, evict?,
      if_neg (by omega), htail]
    dsimp only
    rw [h.release?, Option.bind_eq_bind, Option.bind_some]
    dsimp only
    have hfst := Contents.vacate_fst (c.unlink victim) victim
    rw [Contents.occupies_unlink] at hfst
    generalize (c.unlink victim).vacate victim = outcome at hfst ⊢
    obtain ⟨_ | _, c'⟩ := outcome
    · dsimp only
      rw [← hfst, evict?, if_pos hroom]
      rfl
    · rw [← hfst]
      rfl
  · rw [if_neg hfull]
    unfold Recency.makeRoom
    rw [if_neg hfull]

theorem allocate? (h : r.Keeps c order) (s : Serial) : r.allocate? s = some (r.allocate s) := by
  unfold Recency.allocate?
  cases hfree : r.free with
  | nil => exact if_pos h.fits
  | cons i rest =>
    obtain ⟨node, hnode, _⟩ := (h.mem_free i).mp (by simp [hfree])
    exact if_pos (Array.getElem?_eq_some_iff.mp hnode).1

/-- The place of a new entry is in the arena, and so is the head that it is put before. -/
theorem attachAllocated? (h : r.Keeps c order) (s : Serial) :
    (r.allocate s).2.attachFront? (r.allocate s).1.index.toNat =
      some ((r.allocate s).2.attachFront (r.allocate s).1.index.toNat) := by
  obtain ⟨i, generation, hplace, halloc⟩ := h.allocate s
  have hlt : i < (r.allocate s).2.nodes.size := (Array.getElem?_eq_some_iff.mp halloc.self).1
  have hfits := h.fits
  have hgrown := halloc.nodes_size
  have hindex : (r.allocate s).1.index.toNat = i := by
    rw [hplace]
    exact toNat_index (by omega)
  rw [hindex]
  apply attachFront?_eq hlt
  intro j hj
  rw [halloc.head] at hj
  have hhead := h.head_lt hj
  omega

theorem add? (h : r.Keeps c order) (s : Serial) : r.add? c s = some (r.add c s) := by
  unfold Recency.add? Recency.add
  cases hplace : (c.handle? s).bind r.resolve? with
  | some i =>
    obtain ⟨before, after, rfl⟩ := List.append_of_mem (h.resolve_iff.mp hplace)
    dsimp only
    rw [h.moveToFront?, Option.bind_eq_bind, Option.bind_some]
  | none =>
    dsimp only
    split
    · obtain ⟨rest, hkeeps, _⟩ := h.makeRoom
      simp only [h.makeRoom?, Option.bind_eq_bind, Option.bind_some, hkeeps.allocate? s,
        hkeeps.attachAllocated? s]
    · rfl

theorem hit? (h : r.Keeps c order) (place : Handle) : r.hit? place = some (r.hit place) := by
  unfold Recency.hit? Recency.hit
  cases hplace : r.resolve? place with
  | some i =>
    obtain ⟨_, _, s, _, _, hmem⟩ := h.resolve?_eq_some.mp hplace
    obtain ⟨before, after, rfl⟩ := List.append_of_mem hmem
    exact h.moveToFront?
  | none => rfl

theorem hitAll? (h : r.Keeps c order) (places : List Handle) :
    r.hitAll? places = some (r.hitAll places) := by
  induction places generalizing r order with
  | nil => rfl
  | cons place rest ih =>
    obtain ⟨order', hnext, _⟩ := h.hit place
    rw [Recency.hitAll?, h.hit? place, Option.bind_eq_bind, Option.bind_some]
    exact ih hnext

theorem remove? (h : r.Keeps c order) (s : Serial) : r.remove? c s = some (r.remove c s) := by
  have hvacated : r.Keeps (c.vacate s).2 order := h.of_entries_eq fun t =>
    Contents.entry?_vacate c s t
  unfold Recency.remove? Recency.remove
  dsimp only
  cases hplace : ((c.vacate s).2.handle? s).bind r.resolve? with
  | some i =>
    have hmem := hvacated.resolve_iff.mp hplace
    obtain ⟨node, hnode, hentry⟩ := h.node_of_mem hmem
    obtain ⟨before, after, rfl⟩ := List.append_of_mem hmem
    dsimp only
    rw [hvacated.release?, release_eq hnode hentry]
    rfl
  | none => rfl

theorem keys? (h : r.Keeps c order) : r.keys? c = some (r.keys c) := by
  unfold Recency.keys? Recency.keys
  rw [h.head, walk?_of_linked r h.linked h.length_le, h.toList_eq]
  rfl

end Keeps

end Recency

namespace Shelf

variable {V : Type} {s : Shelf V}

/-- One request, which fails where a lookup of the list does. -/
def step? (s : Shelf V) : Request V Handle → Option (Option Serial × Shelf V)
  | .add t => do
    let (evicted, recency, contents) ← s.recency.add? s.contents t
    some (evicted, ⟨recency, contents⟩)
  | .hit place => do
    let recency ← s.recency.hit? place
    some (none, { s with recency })
  | .push places => do
    let recency ← s.recency.hitAll? places
    some (none, { s with recency })
  | .remove t => do
    let (removed, recency, contents) ← s.recency.remove? s.contents t
    some (removed, ⟨recency, contents⟩)
  | request => some (s.step request)

/-- The answers to a sequence of requests, and the shelf after them, if no lookup fails. -/
def run? (s : Shelf V) : List (Request V Handle) → Option (List (Option Serial) × Shelf V)
  | [] => some ([], s)
  | request :: rest => do
    let (answer, s) ← s.step? request
    let (answers, s) ← s.run? rest
    some (answer :: answers, s)

theorem Sound.step? (h : s.Sound) (request : Request V Handle) :
    s.step? request = some (s.step request) := by
  obtain ⟨order, hkeeps⟩ := h.keeps
  cases request with
  | add t =>
    unfold Shelf.step?
    dsimp only
    rw [hkeeps.add? t]
    rfl
  | hit place =>
    unfold Shelf.step?
    dsimp only
    rw [hkeeps.hit? place]
    rfl
  | push places =>
    unfold Shelf.step?
    dsimp only
    rw [hkeeps.hitAll? places]
    rfl
  | remove t =>
    unfold Shelf.step?
    dsimp only
    rw [hkeeps.remove? t]
    rfl
  | _ => rfl

/-- No lookup fails as long as the arena has not outgrown the handles. -/
theorem Sound.run? (h : s.Sound) (requests : List (Request V Handle))
    (hfits : (s.run requests).2.recency.Fitting) : s.run? requests = some (s.run requests) := by
  induction requests generalizing s with
  | nil => rfl
  | cons request rest ih =>
    have hagrees := h.step request (((s.step request).2.grows_run rest).fitting hfits)
    unfold Shelf.run?
    rw [h.step? request, Option.bind_eq_bind, Option.bind_some]
    dsimp only
    rw [ih hagrees.sound hfits]
    rfl

end Shelf

end TimedCache
