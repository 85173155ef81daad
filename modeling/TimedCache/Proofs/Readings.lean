import TimedCache.Proofs.Recency.Slots

/-!
The contents as readers see them: a plain map from keys to values and stamps. What the contents go
through, the plain map goes through as one of four changes.
-/

namespace TimedCache

/-- A plain map from keys to values with their stamps. -/
abbrev Readings (V : Type) := String → Option (V × Option Nat)

/-- How the plain map may change at one move. -/
inductive Change (V : Type) where
  | keep
  | put (key : String) (value : V) (stamp : Option Nat)
  | remove (key : String)
  | empty

namespace Change

variable {V : Type}

def apply (m : Readings V) : Change V → Readings V
  | keep => m
  | put key value stamp => fun other => if other = key then some (value, stamp) else m other
  | remove key => fun other => if other = key then none else m other
  | empty => fun _ => none

end Change

namespace Readings

variable {V : Type}

/-- The answer of a plain map at a moment. -/
def answer (m : Readings V) (now : Nat) (delay : Span) (key : String) : Option V × Status :=
  match m key with
  | none => (none, .notExist)
  | some (value, none) => (some value, .exist)
  | some (value, some stamp) =>
    if now < stamp then (some value, .exist)
    else if now < satAdd stamp delay.millis then (some value, .expired)
    else (none, .notExist)

/-- The value of a plain map while it is alive. -/
def alive (m : Readings V) (now : Nat) (delay : Span) (key : String) : Option V :=
  match m.answer now delay key with
  | (value, .exist) => value
  | _ => none

end Readings

namespace Contents

variable {V : Type}

def reading (c : Contents V) : Readings V := fun key =>
  (c.occupantEntry? key).map fun e => (e.value, e.expireAt)

theorem reading_of_vacant {c : Contents V} {key : String} (h : c.occupant? key = none) :
    c.reading key = none := by
  unfold reading occupantEntry?
  rw [h]
  rfl

theorem reading_of_occupant {c : Contents V} {key : String} {s : Serial}
    (h : c.occupant? key = some s) : c.reading key = (c.shown? s).map (·.2) := by
  unfold reading occupantEntry? shown?
  rw [h, Option.bind_some, Option.map_map]
  rfl

theorem WellKeyed.reading_isSome {c : Contents V} (h : c.WellKeyed) (key : String) :
    (c.reading key).isSome = (c.occupant? key).isSome := by
  cases hs : c.occupant? key with
  | none =>
    rw [reading_of_vacant hs]
    rfl
  | some s =>
    obtain ⟨e, he, _⟩ := h.keyed key s hs
    rw [reading_of_occupant hs]
    simp [shown?, he]

theorem reading_congr {c c' : Contents V} {key : String}
    (hslot : c'.occupant? key = c.occupant? key)
    (hshown : ∀ s, c.occupant? key = some s → c'.shown? s = c.shown? s) :
    c'.reading key = c.reading key := by
  cases hs : c.occupant? key with
  | none => rw [reading_of_vacant hs, reading_of_vacant (hslot.trans hs)]
  | some s => rw [reading_of_occupant hs, reading_of_occupant (hslot.trans hs), hshown s hs]

/-- Emptying the slot of an entry without a slot goes unnoticed. -/
theorem Vacated.reading_eq {c c' : Contents V} {gone : Option Serial} (h : Vacated c c' gone)
    (hgone : ∀ s, gone = some s → c.occupies s = false) (hkeyed : c.WellKeyed) :
    c'.reading = c.reading := by
  funext key
  apply reading_congr
  · apply Option.ext
    intro s
    rw [h.occupant_iff]
    constructor
    · exact fun hs => hs.1
    · intro hs
      refine ⟨hs, ?_⟩
      intro heq
      have hfree := hgone s heq
      rw [hkeyed.occupies_of_occupant? hs] at hfree
      cases hfree
  · exact fun s _ => h.shown s

/-- Emptying the slot of an entry that has one removes its key. -/
theorem Vacated.reading_remove {c c' : Contents V} {s : Serial} {key : String}
    (h : Vacated c c' (some s)) (hkeyed : c.WellKeyed) (hs : c.occupant? key = some s) :
    c'.reading = (Change.remove key).apply c.reading := by
  funext other
  unfold Change.apply
  dsimp only
  split
  · rename_i heq
    subst heq
    apply reading_of_vacant
    rw [Option.eq_none_iff_forall_ne_some]
    intro t ht
    have hboth := (h.occupant_iff other t).mp ht
    rw [hs] at hboth
    cases hboth.1
    exact hboth.2 rfl
  · rename_i hother
    apply reading_congr
    · apply Option.ext
      intro t
      rw [h.occupant_iff]
      constructor
      · exact fun ht => ht.1
      · intro ht
        refine ⟨ht, ?_⟩
        rintro ⟨rfl⟩
        exact hother (hkeyed.key_unique ht hs)
    · exact fun t _ => h.shown t

theorem WellKeyed.reading_overwrite {c : Contents V} (h : c.WellKeyed) {key : String} {s : Serial}
    (hs : c.occupant? key = some s) (value : V) (stamp : Option Nat) :
    (c.modify s (·.overwrite value stamp)).reading =
      (Change.put key value stamp).apply c.reading := by
  obtain ⟨e, he, _⟩ := h.keyed key s hs
  funext other
  unfold Change.apply
  dsimp only
  split
  · rename_i heq
    subst heq
    have hslot : (c.modify s (·.overwrite value stamp)).occupant? other = some s :=
      (occupant?_modify c s _ other).trans hs
    rw [reading_of_occupant hslot]
    unfold shown?
    rw [entry?_modify, if_pos rfl, he]
    rfl
  · rename_i hother
    apply reading_congr (occupant?_modify c s _ other)
    intro t ht
    have hst : s ≠ t := by
      rintro rfl
      exact hother (h.key_unique ht hs)
    unfold shown?
    rw [entry?_modify, if_neg hst]

theorem WellKeyed.shown?_create {c : Contents V} (h : c.WellKeyed) (key : String) (value : V)
    (stamp : Option Nat) {other : String} {s : Serial} (hs : c.occupant? other = some s) :
    (c.create key value stamp).2.shown? s = c.shown? s := by
  have hlt := h.occupant_lt hs
  unfold shown?
  rw [entry?_create, if_neg (Nat.ne_of_lt hlt)]

theorem entry?_created (c : Contents V) (key : String) (value : V) (stamp : Option Nat) :
    Contents.entry? (c.create key value stamp).2 c.entries.size =
      some { key, value, expireAt := stamp } := by
  rw [entry?_create, if_pos rfl]

theorem occupant?_place_create (c : Contents V) (key : String) (value : V) (stamp : Option Nat)
    (other : String) :
    ((c.create key value stamp).2.place c.entries.size).occupant? other =
      if key = other then some c.entries.size else c.occupant? other := by
  rw [occupant?_place (entry?_created c key value stamp), occupant?_create]

theorem WellKeyed.reading_insert {c : Contents V} (h : c.WellKeyed) (key : String) (value : V)
    (stamp : Option Nat) :
    ((c.create key value stamp).2.place c.entries.size).reading =
      (Change.put key value stamp).apply c.reading := by
  funext other
  have hslot := occupant?_place_create c key value stamp other
  unfold Change.apply
  dsimp only
  by_cases heq : other = key
  · subst heq
    rw [if_pos rfl] at hslot
    rw [if_pos rfl, reading_of_occupant hslot, shown?_place]
    unfold shown?
    rw [entry?_created]
    rfl
  · rw [if_neg (Ne.symm heq)] at hslot
    rw [if_neg heq]
    apply reading_congr hslot
    intro s hs
    rw [shown?_place, h.shown?_create key value stamp hs]

/-- Taking a refused entry back restores what readers saw. -/
theorem WellKeyed.reading_refused {c : Contents V} (h : c.WellKeyed) {key : String}
    (hs : c.occupant? key = none) (value : V) (stamp : Option Nat) :
    (((c.create key value stamp).2.place c.entries.size).vacate c.entries.size).2.reading =
      c.reading := by
  have hplaced := (h.create key value stamp).place c.entries.size
  funext other
  apply reading_congr
  · rw [hplaced.occupant?_vacate, occupant?_place_create]
    by_cases heq : key = other
    · subst heq
      rw [if_pos rfl, if_pos rfl, hs]
    · rw [if_neg heq, if_neg]
      intro hlast
      exact Nat.lt_irrefl _ (h.occupant_lt hlast)
  · intro s ht
    rw [shown?_vacate, shown?_place, h.shown?_create key value stamp ht]

theorem reading_takeKey (c : Contents V) (key : String) :
    (c.takeKey key).2.reading = (Change.remove key).apply c.reading := by
  funext other
  have hslot := occupant?_takeKey c key other
  unfold Change.apply
  dsimp only
  by_cases heq : other = key
  · subst heq
    rw [if_pos rfl] at hslot
    rw [if_pos rfl, reading_of_vacant hslot]
  · rw [if_neg (Ne.symm heq)] at hslot
    rw [if_neg heq]
    exact reading_congr hslot fun s _ => shown?_takeKey c key s

theorem reading_clearSlots (c : Contents V) :
    c.clearSlots.reading = Change.empty.apply c.reading := by
  funext key
  exact reading_of_vacant (occupant?_clearSlots c key)

/-- An entry made for a vacant key is one more. -/
theorem WellKeyed.size_place_create {c : Contents V} (h : c.WellKeyed) {key : String}
    (hvacant : c.occupant? key = none) (value : V) (stamp : Option Nat) :
    ((c.create key value stamp).2.place c.entries.size).size = c.size + 1 := by
  obtain ⟨held, hnodup, hlength, hmem⟩ := h.exists_holders
  have hslots := occupant?_place_create c key value stamp
  have hfresh : c.entries.size ∉ held := by
    intro hin
    obtain ⟨other, hother⟩ := (hmem _).mp hin
    exact Nat.lt_irrefl _ (h.occupant_lt hother)
  rw [← hlength]
  refine ((h.create key value stamp).place c.entries.size).size_eq
    (List.nodup_cons.mpr ⟨hfresh, hnodup⟩) fun s => ?_
  simp only [List.mem_cons, hmem, hslots]
  constructor
  · rintro (rfl | ⟨other, hs⟩)
    · exact ⟨key, if_pos rfl⟩
    · refine ⟨other, ?_⟩
      rw [if_neg, hs]
      rintro rfl
      rw [hvacant] at hs
      cases hs
  · rintro ⟨other, hs⟩
    split at hs
    · exact Or.inl (Option.some.inj hs).symm
    · exact Or.inr ⟨other, hs⟩

end Contents

end TimedCache
