import TimedCache.Proofs.Recency.Generations
import TimedCache.Proofs.Sequential.Reference

/-!
Notes of reads and what they stand for. A note names the entry that was read by its place and
generation. However long it waits, the place still holds that entry or has come to a later
generation, so applying the note moves the entry to the front or does nothing.
-/

namespace TimedCache

namespace Recency

variable {V : Type} {r r' r'' : Recency} {c c' : Contents V} {order order' : List Spot}
  {place : Handle} {s t : Serial}

/-- A note stands for an entry: the place holds it, or a later generation and the entry is gone. -/
def Names (r : Recency) (place : Handle) (s : Serial) : Prop :=
  ∃ node, r.nodes[place.index.toNat]? = some node ∧
    ((node.generation = place.generation ∧ node.entry = some s) ∨
      (place.generation < node.generation ∧ s ∉ r.toList))

/-- A note keeps its meaning as long as no generation starts anew. -/
theorem Names.turns (h : r.Names place s) (hkeeps : r.Keeps c order) (hkeeps' : r'.Keeps c' order')
    (hturns : Turns r r' t) (hne : s ≠ t) (hrises : Rises r r') : r'.Names place s := by
  have hback (j : Nat) (hmem : (j, s) ∈ order') : (j, s) ∈ order := by
    obtain ⟨node', hnode', hentry⟩ := hkeeps'.node_of_mem hmem
    obtain ⟨node, hnode, hold⟩ := hturns.entry hne hnode' hentry
    exact hkeeps.occupied j node s hnode hold
  obtain ⟨node, hnode, hnow⟩ := h
  obtain ⟨node', hnode', hplace⟩ := hturns.places hnode
  have hle := hrises _ node node' hnode hnode'
  refine ⟨node', hnode', ?_⟩
  rcases hnow with ⟨hsame, hentry⟩ | ⟨hlater, hout⟩
  · rcases hplace with ⟨hgeneration, hnone | hkept⟩ | ⟨hgeneration, hleft⟩
    · rw [hentry] at hnone
      cases hnone
    · exact Or.inl ⟨hgeneration.trans hsame, hkept.trans hentry⟩
    · right
      constructor
      · rw [← hsame, UInt32.lt_iff_le_and_ne]
        refine ⟨hle, ?_⟩
        rw [hgeneration]
        simp
      · intro hlisted
        obtain ⟨j, hj⟩ := hkeeps'.mem_toList.mp hlisted
        have hmem := hkeeps.occupied _ node s hnode hentry
        obtain ⟨other, hother, hheld⟩ := hkeeps'.node_of_mem hj
        rw [hkeeps.place_unique (hback j hj) hmem, hnode'] at hother
        cases hother
        rw [hheld] at hleft
        rcases hleft with hnone | hadded
        · cases hnone
        · cases hadded
          exact hne rfl
  · right
    refine ⟨UInt32.lt_of_lt_of_le hlater hle, ?_⟩
    intro hlisted
    obtain ⟨j, hj⟩ := hkeeps'.mem_toList.mp hlisted
    exact hout (hkeeps.mem_toList.mpr ⟨j, hback j hj⟩)

/-! ## Applying notes -/

/-- The note of a linked entry moves it to the front; the note of one that is gone does nothing. -/
theorem Names.hit (h : r.Names place s) (hkeeps : r.Keeps c order) :
    (r.hit place).toList = refreshed r.capacity r.toList s false := by
  obtain ⟨node, hnode, ⟨hsame, hentry⟩ | ⟨hlater, hout⟩⟩ := h
  · have hmem := hkeeps.occupied _ node s hnode hentry
    have hresolve := hkeeps.resolve?_eq_some.mpr ⟨rfl, node, s, hnode, hsame, hmem⟩
    have hlisted := hkeeps.mem_toList.mpr ⟨_, hmem⟩
    obtain ⟨before, after, rfl⟩ := List.append_of_mem hmem
    unfold Recency.hit refreshed
    rw [hresolve, if_pos hlisted]
    exact hkeeps.moveToFront_listed
  · have hresolve : r.resolve? place = none := by
      rw [Option.eq_none_iff_forall_ne_some]
      intro i hi
      obtain ⟨rfl, other, _, hother, hgeneration, _⟩ := hkeeps.resolve?_eq_some.mp hi
      rw [hnode] at hother
      cases hother
      rw [hgeneration] at hlater
      exact UInt32.lt_irrefl _ hlater
    unfold Recency.hit refreshed
    rw [hresolve, if_neg hout]
    rfl

theorem mem_refreshed_hit {capacity : Nat} {listed : List Serial} :
    t ∈ refreshed capacity listed s false ↔ t ∈ listed := by
  constructor
  · intro hin
    exact (mem_of_mem_refreshed hin).resolve_right fun hadded => Bool.false_ne_true hadded.2
  · intro hin
    unfold refreshed
    split
    · rcases eq_or_ne t s with rfl | hne
      · simp
      · exact List.mem_cons_of_mem s ((List.mem_erase_of_ne hne).mpr hin)
    · exact hin

/-- The other notes keep their meaning. -/
theorem Names.of_hit (h : r.Names place s) (hkeeps : r.Keeps c order) {other : Handle}
    (hother : r.Names other t) : (r.hit place).Names other t := by
  obtain ⟨node, hnode, hnow⟩ := hother
  obtain ⟨node', hnode', hentry, hgeneration⟩ :=
    exists_of_core_eq (hkeeps.core_hit place other.index.toNat).symm hnode
  refine ⟨node', hnode', ?_⟩
  rw [hentry, hgeneration, h.hit hkeeps, mem_refreshed_hit]
  exact hnow

/-- The notes of a batch move their entries to the front in turn. -/
theorem Keeps.hitAll_toList (hkeeps : r.Keeps c order) {places : List Handle}
    {serials : List Serial} (h : List.Forall₂ r.Names places serials) :
    (r.hitAll places).toList =
      serials.foldl (fun listed s => refreshed r.capacity listed s false) r.toList := by
  induction places generalizing r order serials with
  | nil =>
    cases h
    rfl
  | cons place rest ih =>
    obtain ⟨s, after, hfirst, hrest, rfl⟩ := List.forall₂_cons_left_iff.mp h
    obtain ⟨order', hnext, _⟩ := hkeeps.hit place
    have hcapacity : (r.hit place).capacity = r.capacity := (grows_hitAll r [place]).capacity
    have hnames := hrest.imp fun other t hother => hfirst.of_hit hkeeps hother
    have htail := ih hnext hnames
    rw [hcapacity, hfirst.hit hkeeps] at htail
    exact htail

end Recency

namespace Reference

variable {V : Type} {records : List (Record V)}

theorem touch_serials (h : (records.map (·.serial)).Nodup) (capacity : Nat) (s : Serial) :
    (touch records s).map (·.serial) =
      Recency.refreshed capacity (records.map (·.serial)) s false := by
  unfold touch Recency.refreshed
  cases hfind : records.find? fun r => r.serial == s with
  | none =>
    have hout : s ∉ records.map (·.serial) := by
      simpa using List.find?_eq_none.mp hfind
    rw [if_neg hout]
    rfl
  | some r =>
    have hr := List.mem_of_find?_eq_some hfind
    have hserial : r.serial = s := by simpa using List.find?_some hfind
    subst hserial
    rw [if_pos (List.mem_map_of_mem hr), ← serials_without h]
    rfl

theorem touchAll_serials (h : (records.map (·.serial)).Nodup) (capacity : Nat)
    (serials : List Serial) :
    (serials.foldl touch records).map (·.serial) =
      serials.foldl (fun listed s => Recency.refreshed capacity listed s false)
        (records.map (·.serial)) := by
  induction serials generalizing records with
  | nil => rfl
  | cons s rest ih =>
    have hnodup := ((touch_perm h s).map (·.serial)).nodup_iff.mpr h
    rw [List.foldl_cons, List.foldl_cons, ih hnodup, touch_serials h capacity]

end Reference

end TimedCache
