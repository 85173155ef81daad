import TimedCache.Proofs.Recency.Operations

/-!
The recency list beside a plain one. The plain list names the entries from the most to the least
recently used and knows nothing of places, generations or handles. Between two calls somebody else
may fill, replace or empty slots, so entries can be listed that have lost their slot, two of one
key among them. Whatever the calls are, the recency list answers as the plain one does.
-/

namespace TimedCache

/-- A recency list over contents that others change, too. -/
structure Shelf (V : Type) where
  recency : Recency
  contents : Contents V

namespace Shelf

variable {V α β : Type}

/-- A call of the list, or a change that somebody else makes to the slots. What tells the entry of
a hit is left open: a handle, or the entry that it stands for, if any. -/
inductive Request (V α : Type) where
  | add (s : Serial)
  | hit (used : α)
  | push (used : List α)
  | remove (s : Serial)
  | clear
  /-- Somebody empties the slot of a key. -/
  | drop (key : String)
  /-- Somebody makes an entry and puts it into the slot of its key, whoever was there. -/
  | put (key : String) (value : V) (expireAt : Option Nat)
  /-- Somebody puts an entry made earlier into the slot of its key. -/
  | restore (s : Serial)
  /-- Somebody empties every slot. -/
  | wipe

def Request.map (f : α → β) : Request V α → Request V β
  | .add s => .add s
  | .hit used => .hit (f used)
  | .push used => .push (used.map f)
  | .remove s => .remove s
  | .clear => .clear
  | .drop key => .drop key
  | .put key value expireAt => .put key value expireAt
  | .restore s => .restore s
  | .wipe => .wipe

/-- One request; only additions and removals hand out an entry. -/
def step (s : Shelf V) : Request V Handle → Option Serial × Shelf V
  | .add t =>
    ((s.recency.add s.contents t).1, ⟨(s.recency.add s.contents t).2.1,
      (s.recency.add s.contents t).2.2⟩)
  | .hit place => (none, { s with recency := s.recency.hit place })
  | .push places => (none, { s with recency := s.recency.hitAll places })
  | .remove t =>
    ((s.recency.remove s.contents t).1, ⟨(s.recency.remove s.contents t).2.1,
      (s.recency.remove s.contents t).2.2⟩)
  | .clear =>
    (none, ⟨(s.recency.clear s.contents).1, (s.recency.clear s.contents).2⟩)
  | .drop key => (none, { s with contents := (s.contents.takeKey key).2 })
  | .put key value expireAt =>
    (none, { s with contents :=
      (s.contents.create key value expireAt).2.place s.contents.entries.size })
  | .restore t => (none, { s with contents := s.contents.place t })
  | .wipe => (none, { s with contents := s.contents.clearSlots })

/-- The answers to a sequence of requests, and the shelf after them. -/
def run (s : Shelf V) : List (Request V Handle) → List (Option Serial) × Shelf V
  | [] => ([], s)
  | request :: rest =>
    ((s.step request).1 :: ((s.step request).2.run rest).1, ((s.step request).2.run rest).2)

/-- The listed entry whose current handle this is. -/
def named? (s : Shelf V) (place : Handle) : Option Serial :=
  s.recency.toList.find? fun t => s.contents.handle? t = some place

/-- The requests with every handle read as the entry that it stands for when it is used. -/
def named (s : Shelf V) : List (Request V Handle) → List (Request V (Option Serial))
  | [] => []
  | request :: rest => request.map s.named? :: (s.step request).2.named rest

end Shelf

/-! ## The plain list -/

/-- A plain list of entries beside the slots. An entry is told by when it was made. -/
structure Ranking where
  capacity : Nat
  /-- Most recently used first. -/
  listed : List Serial := []
  /-- The keys of the entries, in the order in which the entries were made. -/
  made : List String := []
  slots : String → Option Serial := fun _ => none

namespace Ranking

variable {V : Type}

/-- Whether the slot of the entry's key holds that very entry. -/
def occupies (q : Ranking) (s : Serial) : Bool :=
  q.made[s]?.any fun key => q.slots key == some s

/-- The slots without one entry. -/
def vacated (slots : String → Option Serial) (s : Serial) : String → Option Serial := fun key =>
  if slots key = some s then none else slots key

/-- An entry that was used is first; what stands for no entry changes nothing. -/
def front (listed : List Serial) : Option Serial → List Serial
  | some s => s :: listed.erase s
  | none => listed

/-- One request. An entry that a full list drops for an added one loses its slot, and is handed
out if it had one. -/
def step (q : Ranking) : Shelf.Request V (Option Serial) → Option Serial × Ranking
  | .add s =>
    let evicted := Recency.victim? q.capacity q.listed s q.occupies
    (evicted, { q with
      listed := Recency.refreshed q.capacity q.listed s (q.occupies s)
      slots := evicted.elim q.slots (vacated q.slots) })
  | .hit used => (none, { q with listed := front q.listed used })
  | .push used => (none, { q with listed := used.foldl front q.listed })
  | .remove s =>
    (if s ∈ q.listed then some s else none,
      { q with listed := q.listed.erase s, slots := vacated q.slots s })
  | .clear => (none, { q with listed := [] })
  | .drop key => (none, { q with slots := Function.update q.slots key none })
  | .put key _ _ =>
    (none, { q with
      made := q.made ++ [key], slots := Function.update q.slots key (some q.made.length) })
  | .restore s =>
    (none, { q with
      slots := q.made[s]?.elim q.slots fun key => Function.update q.slots key (some s) })
  | .wipe => (none, { q with slots := fun _ => none })

/-- The answers to a sequence of requests, and the list after them. -/
def run (q : Ranking) : List (Shelf.Request V (Option Serial)) → List (Option Serial) × Ranking
  | [] => ([], q)
  | request :: rest =>
    ((q.step request).1 :: ((q.step request).2.run rest).1, ((q.step request).2.run rest).2)

end Ranking

/-! ## Handles of listed entries -/

namespace Recency

variable {V : Type} {r : Recency} {c : Contents V} {order : List Spot}

/-- A handle leads to the place of a listed entry if it is the one that the entry has now. -/
theorem Keeps.resolve?_of_mem (h : r.Keeps c order) {place : Handle} {i : Nat} {s : Serial}
    (hmem : (i, s) ∈ order) : r.resolve? place = some i ↔ c.handle? s = some place := by
  constructor
  · intro hresolve
    obtain ⟨hindex, node, _, hnode, hgeneration, _⟩ := h.resolve?_eq_some.mp hresolve
    obtain ⟨node', hnode', hhandle⟩ := h.handle?_of_mem hmem
    rw [hnode] at hnode'
    cases hnode'
    rw [hhandle, hgeneration, ← hindex, UInt32.ofNat_toNat]
  · intro hhandle
    have hplace := h.resolve_iff.mpr hmem
    rwa [hhandle, Option.bind_some] at hplace

/-- No two listed entries have the same handle. -/
theorem Keeps.handle?_inj (h : r.Keeps c order) {s t : Serial} {place : Handle}
    (hs : s ∈ r.toList) (ht : t ∈ r.toList) (hhandle : c.handle? s = some place)
    (hother : c.handle? t = some place) : s = t := by
  obtain ⟨i, hi⟩ := h.mem_toList.mp hs
  obtain ⟨j, hj⟩ := h.mem_toList.mp ht
  have hplace := (h.resolve?_of_mem hi).mpr hhandle
  rw [(h.resolve?_of_mem hj).mpr hother] at hplace
  cases hplace
  obtain ⟨node, hnode, hentry⟩ := h.node_of_mem hi
  obtain ⟨node', hnode', hentry'⟩ := h.node_of_mem hj
  rw [hnode] at hnode'
  cases hnode'
  exact Option.some.inj (hentry.symm.trans hentry')

theorem Keeps.named?_eq_some (h : r.Keeps c order) {place : Handle} {s : Serial} :
    (Shelf.mk r c).named? place = some s ↔ s ∈ r.toList ∧ c.handle? s = some place := by
  unfold Shelf.named?
  constructor
  · intro hfind
    exact ⟨List.mem_of_find?_eq_some hfind, by simpa using List.find?_some hfind⟩
  · rintro ⟨hs, hhandle⟩
    cases hfind : r.toList.find? fun t => c.handle? t = some place with
    | none => simpa [hhandle] using List.find?_eq_none.mp hfind s hs
    | some t =>
      have hother : c.handle? t = some place := by simpa using List.find?_some hfind
      rw [h.handle?_inj hs (List.mem_of_find?_eq_some hfind) hhandle hother]

theorem Keeps.hit_toList (h : r.Keeps c order) (place : Handle) :
    (r.hit place).toList = Ranking.front r.toList ((Shelf.mk r c).named? place) := by
  unfold Recency.hit
  cases hplace : r.resolve? place with
  | some i =>
    obtain ⟨_, _, s, _, _, hmem⟩ := h.resolve?_eq_some.mp hplace
    have hhandle := (h.resolve?_of_mem hmem).mp hplace
    rw [h.named?_eq_some.mpr ⟨h.mem_toList.mpr ⟨i, hmem⟩, hhandle⟩]
    obtain ⟨before, after, rfl⟩ := List.append_of_mem hmem
    exact h.moveToFront_listed
  | none =>
    have hnone : (Shelf.mk r c).named? place = none := by
      rw [Option.eq_none_iff_forall_ne_some]
      intro s hs
      obtain ⟨hlisted, hhandle⟩ := h.named?_eq_some.mp hs
      obtain ⟨i, hmem⟩ := h.mem_toList.mp hlisted
      rw [(h.resolve?_of_mem hmem).mpr hhandle] at hplace
      cases hplace
    rw [hnone]
    rfl

/-- Hits change the order of the list, not which entry a handle stands for. -/
theorem Keeps.named?_hit (h : r.Keeps c order) (place other : Handle) :
    (Shelf.mk (r.hit place) c).named? other = (Shelf.mk r c).named? other := by
  obtain ⟨order', hkeeps, hperm⟩ := h.hit place
  have hlisted (s : Serial) : s ∈ (r.hit place).toList ↔ s ∈ r.toList := by
    rw [hkeeps.toList_eq, h.toList_eq]
    exact (hperm.map (·.2)).mem_iff
  apply Option.ext
  intro s
  rw [hkeeps.named?_eq_some, h.named?_eq_some, hlisted]

theorem Keeps.hitAll_toList_named (h : r.Keeps c order) (places : List Handle) :
    (r.hitAll places).toList =
      (places.map (Shelf.mk r c).named?).foldl Ranking.front r.toList := by
  induction places generalizing r order with
  | nil => rfl
  | cons place rest ih =>
    obtain ⟨order', hkeeps, _⟩ := h.hit place
    have hsame : (Shelf.mk (r.hit place) c).named? = (Shelf.mk r c).named? :=
      funext (h.named?_hit place)
    have hrest := ih hkeeps
    rw [hsame, h.hit_toList place] at hrest
    exact hrest

end Recency

namespace Shelf

variable {V : Type} {s : Shelf V}

/-- A shelf as its plain list. -/
def ranking (s : Shelf V) : Ranking where
  capacity := s.recency.capacity
  listed := s.recency.toList
  made := s.contents.entries.toList.map (·.key)
  slots := s.contents.occupant?

theorem ranking_listed (s : Shelf V) : s.ranking.listed = s.recency.toList := rfl

theorem ranking_made (s : Shelf V) (t : Serial) :
    s.ranking.made[t]? = (s.contents.entry? t).map (·.key) := by
  simp [ranking, Contents.entry?]

theorem ranking_occupies (s : Shelf V) : s.ranking.occupies = s.contents.occupies := by
  funext t
  unfold Ranking.occupies Contents.occupies
  rw [ranking_made]
  cases s.contents.entry? t <;> rfl

/-- The list keeps its entries, and the slots are filled under the right keys. -/
structure Sound (s : Shelf V) : Prop where
  keeps : ∃ order, s.recency.Keeps s.contents order
  keyed : s.contents.WellKeyed

theorem sound_start {n : Nat} {c : Contents V} (hc : Contents.withShards n = .ok c)
    (capacity : Nat) : Sound ⟨.withCapacity capacity, c⟩ where
  keeps := ⟨[], Recency.keeps_withCapacity capacity (Contents.entry?_withShards hc)⟩
  keyed := Contents.wellKeyed_withShards hc

/-- A request keeps the shelf sound, and the plain list answers and changes as the shelf does. -/
structure Agrees (s : Shelf V) (request : Request V Handle) : Prop where
  sound : (s.step request).2.Sound
  step : s.ranking.step (request.map s.named?) =
    ((s.step request).1, (s.step request).2.ranking)

/-! ## The calls -/

theorem made_getElem? (c : Contents V) (t : Serial) :
    (c.entries.toList.map (·.key))[t]? = (c.shown? t).map (·.1) := by
  simp [Contents.shown?, Contents.entry?, Function.comp_def]

/-- A call that takes one slot away at most changes nothing of the plain list but that slot and the
order. -/
theorem sound_of_vacated {r' : Recency} {c' : Contents V} {gone : Option Serial}
    (hkeeps : ∃ order, r'.Keeps c' order) (hvacated : Contents.Vacated s.contents c' gone) :
    Sound ⟨r', c'⟩ ∧ (Shelf.mk r' c').ranking =
      { s.ranking with
        capacity := r'.capacity
        listed := r'.toList
        slots := gone.elim s.contents.occupant? (Ranking.vacated s.contents.occupant?) } := by
  have hmade : c'.entries.toList.map (·.key) = s.contents.entries.toList.map (·.key) := by
    apply List.ext_getElem?
    intro t
    rw [made_getElem?, made_getElem?, hvacated.shown]
  have hslots : c'.occupant? = gone.elim s.contents.occupant?
      (Ranking.vacated s.contents.occupant?) := by
    funext key
    apply Option.ext
    intro t
    rw [hvacated.occupant_iff]
    cases gone with
    | none => simp
    | some u =>
      simp only [Option.elim_some, Ranking.vacated]
      split <;> grind
  refine ⟨⟨hkeeps, hvacated.wellKeyed⟩, ?_⟩
  simp only [ranking, hmade, hslots]

theorem Sound.add (h : s.Sound) (t : Serial)
    (hfits : (s.step (.add t)).2.recency.Fitting) : s.Agrees (.add t) := by
  obtain ⟨order, hkeeps⟩ := h.keeps
  obtain ⟨hafter, hlisted, hevicted⟩ := hkeeps.add h.keyed t hfits
  obtain ⟨hsound, hranking⟩ := sound_of_vacated hafter (Recency.add_vacated h.keyed s.recency t).1
  refine ⟨hsound, ?_⟩
  unfold Ranking.step step Request.map
  dsimp only
  rw [hranking, ranking_occupies, hlisted, (Recency.grows_add s.recency s.contents t).capacity,
    hevicted]
  rfl

theorem Sound.remove (h : s.Sound) (t : Serial) : s.Agrees (.remove t) := by
  obtain ⟨order, hkeeps⟩ := h.keeps
  obtain ⟨⟨after, hafter, _⟩, hlisted, hremoved⟩ := hkeeps.remove t
  obtain ⟨hsound, hranking⟩ :=
    sound_of_vacated ⟨after, hafter⟩ (Recency.remove_vacated h.keyed s.recency t)
  refine ⟨hsound, ?_⟩
  unfold Ranking.step step Request.map
  dsimp only
  rw [hranking, hlisted, (Recency.grows_remove s.recency s.contents t).capacity, hremoved]
  rfl

theorem Sound.clear (h : s.Sound) : s.Agrees .clear := by
  obtain ⟨order, hkeeps⟩ := h.keeps
  obtain ⟨hsound, hranking⟩ :=
    sound_of_vacated ⟨[], hkeeps.clear⟩ (Recency.clear_vacated h.keyed s.recency)
  refine ⟨hsound, ?_⟩
  unfold Ranking.step step Request.map
  dsimp only
  rw [hranking, hkeeps.clear.toList_eq, (Recency.grows_clear s.recency s.contents).capacity]
  rfl

theorem Sound.push (h : s.Sound) (places : List Handle) : s.Agrees (.push places) := by
  obtain ⟨order, hkeeps⟩ := h.keeps
  obtain ⟨after, hafter, _⟩ := hkeeps.hitAll places
  obtain ⟨hsound, hranking⟩ := sound_of_vacated ⟨after, hafter⟩ (.refl h.keyed)
  refine ⟨hsound, ?_⟩
  unfold Ranking.step step Request.map
  dsimp only
  rw [hranking, hkeeps.hitAll_toList_named places, (Recency.grows_hitAll s.recency places).capacity]
  rfl

/-! ## What somebody else does -/

/-- Somebody else changed the slots and made entries, but linked none. -/
theorem Sound.of_elsewhere (h : s.Sound) {c' : Contents V} (hkeyed : c'.WellKeyed)
    (hold : ∀ t e, s.contents.entry? t = some e → c'.entry? t = some e)
    (hnew : ∀ t e, c'.entry? t = some e → s.contents.entry? t = none →
      e.node = Handle.unlinked) : Sound ⟨s.recency, c'⟩ := by
  obtain ⟨order, hkeeps⟩ := h.keeps
  exact ⟨⟨order, hkeeps.of_contents (fun t e he => ⟨e, hold t e he, rfl⟩) hnew⟩, hkeyed⟩

/-- Somebody else changed the slots only. -/
theorem Sound.of_slots (h : s.Sound) {c' : Contents V} (hkeyed : c'.WellKeyed)
    (hentries : c'.entries = s.contents.entries) : Sound ⟨s.recency, c'⟩ ∧
      (Shelf.mk s.recency c').ranking = { s.ranking with slots := c'.occupant? } := by
  have hsame (t : Serial) : c'.entry? t = s.contents.entry? t := by
    unfold Contents.entry?
    rw [hentries]
  constructor
  · refine h.of_elsewhere hkeyed (fun t e he => (hsame t).trans he) ?_
    intro t e he hnone
    rw [hsame, hnone] at he
    cases he
  · simp only [ranking, hentries]

theorem Sound.drop (h : s.Sound) (key : String) : s.Agrees (.drop key) := by
  obtain ⟨hsound, hranking⟩ :=
    h.of_slots (h.keyed.takeKey key) (Contents.entries_takeKey s.contents key)
  refine ⟨hsound, ?_⟩
  unfold Ranking.step step Request.map
  dsimp only
  rw [hranking]
  congr 2
  funext other
  rw [Contents.occupant?_takeKey, Function.update_apply]
  simp only [eq_comm]
  rfl

theorem Sound.restore (h : s.Sound) (t : Serial) : s.Agrees (.restore t) := by
  obtain ⟨hsound, hranking⟩ := h.of_slots (h.keyed.place t) (Contents.entries_place s.contents t)
  refine ⟨hsound, ?_⟩
  unfold Ranking.step step Request.map
  dsimp only
  rw [hranking, ranking_made]
  congr 2
  cases he : s.contents.entry? t with
  | none =>
    unfold Contents.place
    rw [he]
    rfl
  | some e =>
    funext other
    rw [Contents.occupant?_place he, Option.map_some, Option.elim_some, Function.update_apply]
    simp only [eq_comm]
    rfl

theorem Sound.wipe (h : s.Sound) : s.Agrees .wipe := by
  have hkeyed : s.contents.clearSlots.WellKeyed := .clearSlots
  obtain ⟨hsound, hranking⟩ := h.of_slots hkeyed rfl
  refine ⟨hsound, ?_⟩
  unfold Ranking.step step Request.map
  dsimp only
  rw [hranking]
  congr 2
  funext other
  exact (Contents.occupant?_clearSlots s.contents other).symm

theorem Sound.put (h : s.Sound) (key : String) (value : V) (expireAt : Option Nat) :
    s.Agrees (.put key value expireAt) := by
  have hmade := Contents.entry?_create s.contents key value expireAt
  have hself := (hmade s.contents.entries.size).trans (if_pos rfl)
  refine ⟨h.of_elsewhere ((h.keyed.create key value expireAt).place _) ?_ ?_, ?_⟩
  · intro t e he
    rw [Contents.entry?_place, hmade, if_neg (Nat.ne_of_lt (Contents.lt_size_of_made he))]
    exact he
  · intro t e he hnone
    rw [Contents.entry?_place, hmade] at he
    split at he
    · cases he
      rfl
    · rw [hnone] at he
      cases he
  · unfold Ranking.step step Request.map
    simp only [ranking, Contents.entries_place]
    congr 2
    · simp [Contents.create]
    · funext other
      rw [Contents.occupant?_place hself, Function.update_apply, List.length_map,
        Array.length_toList]
      simp only [eq_comm]
      rfl

theorem Sound.step (h : s.Sound) (request : Request V Handle)
    (hfits : (s.step request).2.recency.Fitting) : s.Agrees request := by
  cases request with
  | add t => exact h.add t hfits
  | hit place => exact ⟨(h.push [place]).sound, (h.push [place]).step⟩
  | push places => exact h.push places
  | remove t => exact h.remove t
  | clear => exact h.clear
  | drop key => exact h.drop key
  | put key value expireAt => exact h.put key value expireAt
  | restore t => exact h.restore t
  | wipe => exact h.wipe

/-! ## Every sequence of requests -/

theorem grows_step (s : Shelf V) (request : Request V Handle) :
    Recency.Grows s.recency (s.step request).2.recency := by
  cases request with
  | add t => exact Recency.grows_add s.recency s.contents t
  | hit place => exact Recency.grows_hitAll s.recency [place]
  | push places => exact Recency.grows_hitAll s.recency places
  | remove t => exact Recency.grows_remove s.recency s.contents t
  | clear => exact Recency.grows_clear s.recency s.contents
  | drop key => exact .refl s.recency
  | put key value expireAt => exact .refl s.recency
  | restore t => exact .refl s.recency
  | wipe => exact .refl s.recency

theorem grows_run (s : Shelf V) (requests : List (Request V Handle)) :
    Recency.Grows s.recency (s.run requests).2.recency := by
  induction requests generalizing s with
  | nil => exact .refl s.recency
  | cons request rest ih => exact (s.grows_step request).trans (ih (s.step request).2)

/-- The capacity stays, so a bounded list never outgrows the handles. -/
theorem fitting_run {c : Contents V} {capacity : Nat} (requests : List (Request V Handle))
    (hfits : (0 < capacity ∧ capacity < Recency.maxPlaces) ∨
      ((Shelf.mk (.withCapacity capacity) c).run requests).2.recency.nodes.size <
        Recency.maxPlaces) :
    ((Shelf.mk (.withCapacity capacity) c).run requests).2.recency.Fitting := by
  unfold Recency.Fitting
  rw [(grows_run (Shelf.mk (.withCapacity capacity) c) requests).capacity]
  exact hfits

theorem Sound.run (h : s.Sound) (requests : List (Request V Handle))
    (hfits : (s.run requests).2.recency.Fitting) :
    (s.run requests).2.Sound ∧
      s.ranking.run (s.named requests) = ((s.run requests).1, (s.run requests).2.ranking) := by
  induction requests generalizing s with
  | nil => exact ⟨h, rfl⟩
  | cons request rest ih =>
    have hagrees := h.step request (((s.step request).2.grows_run rest).fitting hfits)
    obtain ⟨hsound, hrest⟩ := ih hagrees.sound hfits
    refine ⟨hsound, ?_⟩
    unfold named Ranking.run
    rw [hagrees.step, hrest]
    rfl

theorem ranking_start {n : Nat} {c : Contents V} (hc : Contents.withShards n = .ok c)
    (capacity : Nat) : ranking ⟨.withCapacity capacity, c⟩ = { capacity } := by
  obtain ⟨slots, hslots, rfl⟩ := Contents.withShards_eq_ok hc
  have hvacant : Contents.occupant? { entries := #[], slots : Contents V } = fun _ => none :=
    funext (Store.get?_withShards hslots)
  unfold ranking
  rw [hvacant]
  rfl

theorem Sound.keys_eq (h : s.Sound) :
    (s.recency.keys s.contents).map some = s.recency.toList.map (s.ranking.made[·]?) := by
  obtain ⟨order, hkeeps⟩ := h.keeps
  have hmade : s.recency.toList.map (s.ranking.made[·]?) =
      s.recency.toList.map fun t => (s.contents.entry? t).map (·.key) :=
    List.map_congr_left fun t _ => s.ranking_made t
  unfold Recency.keys
  rw [hmade, List.map_filterMap_some_eq_filter_map_isSome, List.filter_eq_self]
  intro key? hkey
  obtain ⟨t, ht, rfl⟩ := List.mem_map.mp hkey
  have hhandle := hkeeps.isSome_handle?_iff.mpr ht
  unfold Contents.handle? at hhandle
  cases he : s.contents.entry? t with
  | none => simp [he] at hhandle
  | some e => rfl

/-- A recency list answers every sequence of calls as a plain list of distinct entries does, and
keeps the same entries in the same order, whatever is done to the slots meanwhile. A handle stands
for the listed entry that has it now, and only listed entries have one. -/
theorem ranks_as_plain_list {n capacity : Nat} {c : Contents V}
    (hc : Contents.withShards n = .ok c) {requests : List (Request V Handle)}
    {answers : List (Option Serial)} {s : Shelf V}
    (hrun : (Shelf.mk (.withCapacity capacity) c).run requests = (answers, s))
    (hfits : (0 < capacity ∧ capacity < Recency.maxPlaces) ∨
      s.recency.nodes.size < Recency.maxPlaces) :
    Ranking.run { capacity } ((Shelf.mk (.withCapacity capacity) c).named requests) =
      (answers, s.ranking) ∧
    s.ranking.listed.Nodup ∧
    (s.recency.keys s.contents).map some = s.ranking.listed.map (s.ranking.made[·]?) ∧
    s.recency.size = s.ranking.listed.length ∧
    (0 < capacity → s.recency.size ≤ capacity) ∧
    (∀ t, t ∈ s.ranking.listed ↔ (s.contents.handle? t).isSome) ∧
    ∀ place t, s.named? place = some t ↔
      t ∈ s.ranking.listed ∧ s.contents.handle? t = some place := by
  have hgrows := grows_run (Shelf.mk (.withCapacity capacity) c) requests
  rw [hrun] at hgrows
  have hcapacity : s.recency.capacity = capacity := hgrows.capacity
  have hstart := sound_start hc capacity
  obtain ⟨hsound, hranked⟩ := hstart.run requests (by
    rw [hrun]
    unfold Recency.Fitting
    rwa [hcapacity])
  rw [hrun] at hsound hranked
  rw [ranking_start hc] at hranked
  obtain ⟨order, hkeeps⟩ := hsound.keeps
  have hsize : s.recency.size = s.recency.toList.length := by
    rw [hkeeps.size_eq, hkeeps.toList_eq, List.length_map]
  refine ⟨hranked, hkeeps.nodup_toList, hsound.keys_eq, hsize, ?_,
    fun t => hkeeps.isSome_handle?_iff.symm, fun place t => hkeeps.named?_eq_some⟩
  intro hpos
  have hbound := hkeeps.length_le_capacity
  rw [hcapacity] at hbound
  rw [hkeeps.size_eq]
  omega

/-- With room for one entry, `a` is listed and replaced. The entry that replaced it takes its place
unreported, since the first had lost its slot, and is handed out when `b` comes. -/
theorem ranks_as_plain_list_replaced :
    ∃ (c : Contents Nat) (s : Shelf Nat),
      (Shelf.mk (.withCapacity 1) c).run [.put "a" 1 none, .add 0, .put "a" 2 none, .add 1,
          .put "b" 3 none, .add 2] =
        ([none, none, none, none, none, some 1], s) ∧
      s.recency.keys s.contents = ["b"] := by
  obtain ⟨c, hc⟩ : ∃ c : Contents Nat, Contents.withShards 4 = .ok c := ⟨_, rfl⟩
  let requests : List (Request Nat Handle) := [.put "a" 1 none, .add 0, .put "a" 2 none, .add 1,
    .put "b" 3 none, .add 2]
  obtain ⟨answers, s, hrun⟩ : ∃ answers s,
    (Shelf.mk (.withCapacity 1) c).run requests = (answers, s) := ⟨_, _, rfl⟩
  obtain ⟨hranked, _, hkeys, _⟩ := ranks_as_plain_list hc hrun (Or.inl (by decide))
  have hnamed : (Shelf.mk (.withCapacity 1) c).named requests = [.put "a" 1 none, .add 0,
    .put "a" 2 none, .add 1, .put "b" 3 none, .add 2] := rfl
  rw [hnamed] at hranked
  have hanswers : answers = [none, none, none, none, none, some 1] :=
    (congrArg Prod.fst hranked).symm
  have hranking := congrArg Prod.snd hranked
  dsimp only at hranking
  refine ⟨c, s, hanswers ▸ hrun, List.map_injective_iff.mpr (Option.some_injective _) ?_⟩
  rw [hkeys, ← hranking]
  rfl

end Shelf

end TimedCache
