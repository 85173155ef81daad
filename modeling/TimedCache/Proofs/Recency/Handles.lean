import TimedCache.Proofs.Recency.Generations
import TimedCache.Proofs.Recency.Ranking

/-!
Handles that were taken down some time ago. Every place that is freed moves on to its next
generation, so the node of a handle either still holds the entry that the handle was given to, or
has come to a later generation for good. As long as no generation starts anew, no handle is given
twice, and an old one never stands for another entry.
-/

namespace TimedCache

namespace Recency

variable {V : Type} {r r' : Recency} {c : Contents V} {order : List Spot} {place : Handle}
  {s t : Serial}

/-- The handle that an addition gives to its entry, if it gives one. -/
def given? (r : Recency) (c : Contents V) (s : Serial) : Option Handle :=
  match (c.handle? s).bind r.resolve? with
  | some _ => none
  | none => if c.occupies s then some ((r.makeRoom c).2.1.allocate s).1 else none

/-- The node of a handle holds the entry that had the handle, or has come to a later generation. -/
def Recalls (r : Recency) (place : Handle) (s : Serial) : Prop :=
  ∃ node, r.nodes[place.index.toNat]? = some node ∧
    ((node.generation = place.generation ∧ node.entry = some s) ∨
      place.generation < node.generation)

/-- The handle of a listed entry. -/
theorem Keeps.recalls (h : r.Keeps c order) (hhandle : c.handle? s = some place) :
    r.Recalls place s := by
  have hlisted : s ∈ r.toList := by
    rw [← h.isSome_handle?_iff, hhandle]
    rfl
  obtain ⟨i, hmem⟩ := h.mem_toList.mp hlisted
  obtain ⟨node, hnode, hentry⟩ := h.node_of_mem hmem
  obtain ⟨hindex, other, _, hother, hgeneration, _⟩ :=
    h.resolve?_eq_some.mp ((h.resolve?_of_mem hmem).mpr hhandle)
  rw [hnode] at hother
  cases hother
  exact ⟨node, by rw [hindex, hnode], Or.inl ⟨hgeneration, hentry⟩⟩

/-- What a handle recalls outlasts any change of the places, as long as no generation starts anew. -/
theorem Recalls.turns (h : r.Recalls place s) (hturns : Turns r r' t) (hrises : Rises r r') :
    r'.Recalls place s := by
  obtain ⟨node, hnode, hnow⟩ := h
  obtain ⟨node', hnode', hplace⟩ := hturns.places hnode
  have hle := hrises _ node node' hnode hnode'
  refine ⟨node', hnode', ?_⟩
  rcases hnow with ⟨hsame, hentry⟩ | hlater
  · rcases hplace with ⟨hgeneration, hnone | hkept⟩ | ⟨hgeneration, _⟩
    · rw [hentry] at hnone
      cases hnone
    · exact Or.inl ⟨hgeneration.trans hsame, hkept.trans hentry⟩
    · right
      rw [← hsame, UInt32.lt_iff_le_and_ne]
      refine ⟨hle, ?_⟩
      rw [hgeneration]
      simp
  · exact Or.inr (UInt32.lt_of_lt_of_le hlater hle)

/-- A handle stands for the entry that had it, and only while the entry still has it. -/
theorem Recalls.named? (h : r.Recalls place s) (hkeeps : r.Keeps c order) :
    (Shelf.mk r c).named? place = if c.handle? s = some place then some s else none := by
  apply Option.ext
  intro t
  rw [hkeeps.named?_eq_some]
  constructor
  · rintro ⟨hlisted, hhandle⟩
    obtain ⟨i, hmem⟩ := hkeeps.mem_toList.mp hlisted
    obtain ⟨hindex, node, _, hnode, hgeneration, _⟩ :=
      hkeeps.resolve?_eq_some.mp ((hkeeps.resolve?_of_mem hmem).mpr hhandle)
    obtain ⟨other, hother, ⟨_, hentry⟩ | hlater⟩ := h
    · rw [hindex, hnode] at hother
      cases hother
      obtain ⟨same, hsame, hheld⟩ := hkeeps.node_of_mem hmem
      rw [hnode] at hsame
      cases hsame
      rw [hentry] at hheld
      cases hheld
      rw [if_pos hhandle]
    · rw [hindex, hnode] at hother
      cases hother
      rw [hgeneration] at hlater
      exact absurd hlater (UInt32.lt_irrefl _)
  · intro hsome
    split at hsome
    · rename_i hhandle
      cases hsome
      refine ⟨?_, hhandle⟩
      rw [← hkeeps.isSome_handle?_iff, hhandle]
      rfl
    · cases hsome

/-- A handle that stands for nothing changes nothing. -/
theorem Keeps.hit_of_unnamed (h : r.Keeps c order)
    (hnone : (Shelf.mk r c).named? place = none) : r.hit place = r := by
  unfold Recency.hit
  cases hplace : r.resolve? place with
  | none => rfl
  | some i =>
    obtain ⟨_, _, s, _, _, hmem⟩ := h.resolve?_eq_some.mp hplace
    have hhandle := (h.resolve?_of_mem hmem).mp hplace
    rw [h.named?_eq_some.mpr ⟨h.mem_toList.mpr ⟨i, hmem⟩, hhandle⟩] at hnone
    cases hnone

/-! ## Handles that are given -/

/-- An addition that gives a handle makes room, and then takes a place. -/
theorem Keeps.add_of_given (h : r.Keeps c order) (hgiven : r.given? c s = some place) :
    place = ((r.makeRoom c).2.1.allocate s).1 ∧ c.occupies s = true ∧
      r.add c s = ((r.makeRoom c).1, (r.makeRoom c).2.1.admitted (r.makeRoom c).2.2 s) := by
  unfold given? at hgiven
  split at hgiven
  · cases hgiven
  · rename_i hplace
    split at hgiven
    · rename_i hocc
      refine ⟨(Option.some.inj hgiven).symm, hocc, h.add_of_unlinked ?_ hocc⟩
      intro i hmem
      rw [h.resolve_iff.mpr hmem] at hplace
      cases hplace
    · cases hgiven

/-- The given handle is the one that the entry has from then on. -/
theorem Keeps.handle?_of_given (h : r.Keeps c order) (hkeyed : c.WellKeyed)
    (hfits : (r.add c s).2.1.nodes.size < maxPlaces) (hgiven : r.given? c s = some place) :
    (r.add c s).2.2.handle? s = some place := by
  obtain ⟨hplace, hocc, hadd⟩ := h.add_of_given hgiven
  obtain ⟨e, he, _⟩ := Contents.occupies_iff.mp hocc
  obtain ⟨e', he'⟩ := (makeRoom_vacated hkeyed r).1.made he
  obtain ⟨between, hbetween, _⟩ := h.makeRoom
  obtain ⟨i, generation, hnew, halloc⟩ := hbetween.allocate s
  rw [hadd] at hfits ⊢
  dsimp only at hfits ⊢
  change ((r.makeRoom c).2.2.link s ((r.makeRoom c).2.1.allocate s).1).handle? s = some place
  have hlt : i < ((r.makeRoom c).2.1.allocate s).2.nodes.size :=
    (Array.getElem?_eq_some_iff.mp halloc.self).1
  have hsize : (((r.makeRoom c).2.1.admitted (r.makeRoom c).2.2 s).1).nodes.size =
      ((r.makeRoom c).2.1.allocate s).2.nodes.size :=
    (attachFront_frame _ _).2.2.2
  have hlinked : place.toWord ≠ Handle.unlinked := by
    rw [hplace, hnew]
    exact wordAt_ne_unlinked (by omega) { entry := none, prev := none, next := none, generation }
  unfold Contents.handle? Contents.link
  rw [Contents.entry?_modify, if_pos rfl, he', ← hplace, Option.map_some, Option.bind_some,
    Entry.handle?, Entry.node_link]
  exact Handle.ofWord?_toWord place hlinked

/-- A handle that is given now differs from any that was given before. -/
theorem Recalls.ne_given (h : r.Recalls place s) (hkeeps : r.Keeps c order)
    (hrises : Rises r (r.add c t).2.1) (hfits : (r.add c t).2.1.nodes.size < maxPlaces)
    {new : Handle} (hgiven : r.given? c t = some new) : place ≠ new := by
  obtain ⟨hnew, _, hadd⟩ := hkeeps.add_of_given hgiven
  obtain ⟨between, hbetween, _⟩ := hkeeps.makeRoom
  have hfrees := hkeeps.frees_makeRoom
  rw [hadd] at hrises hfits
  have htakes := hbetween.takes_admitted t hfits
  -- Making room does not start a generation anew either, since the place taken keeps its own.
  have hroom : Rises r (r.makeRoom c).2.1 := by
    intro i node middle hnode hmiddle
    obtain ⟨node', hnode', hsame, _⟩ := htakes.places i middle hmiddle
    have hle := hrises i node node' hnode hnode'
    rwa [hsame] at hle
  obtain ⟨node, hnode, hnow⟩ := h.turns (hfrees.turns t) hroom
  obtain ⟨i, generation, hplace, halloc⟩ := hbetween.allocate t
  have hlt : i < maxPlaces := by
    have hi : i < ((r.makeRoom c).2.1.allocate t).2.nodes.size :=
      (Array.getElem?_eq_some_iff.mp halloc.self).1
    have hbelow := hbetween.fits
    have hgrown := halloc.nodes_size
    omega
  rintro rfl
  rw [hnew, hplace] at hnode hnow
  rw [toNat_index hlt] at hnode
  obtain ⟨hnone, hgeneration⟩ := halloc.wasFree node hnode
  rcases hnow with ⟨_, hentry⟩ | hlater
  · rw [hnone] at hentry
    cases hentry
  · rw [hgeneration] at hlater
    exact UInt32.lt_irrefl _ hlater

/-- An entry that was not added now has had its handle before. -/
theorem Keeps.handle?_of_turns {c' : Contents V} {order' : List Spot} (h : r.Keeps c order)
    (h' : r'.Keeps c' order') (hturns : Turns r r' t) (hne : s ≠ t)
    (hhandle : c'.handle? s = some place) : c.handle? s = some place := by
  have hlisted : s ∈ r'.toList := by
    rw [← h'.isSome_handle?_iff, hhandle]
    rfl
  obtain ⟨i, hmem⟩ := h'.mem_toList.mp hlisted
  obtain ⟨node', hnode', hentry'⟩ := h'.node_of_mem hmem
  obtain ⟨node, hnode, hentry⟩ := hturns.entry hne hnode' hentry'
  obtain ⟨other, hother, hplace⟩ := hturns.places hnode
  rw [hnode'] at hother
  cases hother
  obtain ⟨same, hsame, hafter⟩ := h'.handle?_of_mem hmem
  rw [hnode'] at hsame
  cases hsame
  obtain ⟨old, hold, hbefore⟩ := h.handle?_of_mem (h.occupied i node s hnode hentry)
  rw [hnode] at hold
  cases hold
  rcases hplace with ⟨hgeneration, _⟩ | ⟨_, hnone | hadded⟩
  · rw [hbefore, ← hgeneration, ← hafter, hhandle]
  · rw [hentry'] at hnone
    cases hnone
  · rw [hentry'] at hadded
    cases hadded
    exact absurd rfl hne

/-- An entry has its handle from before an addition, or gets it now. -/
theorem Keeps.handle?_add (h : r.Keeps c order) (hkeyed : c.WellKeyed)
    (hfits : (r.add c t).2.1.nodes.size < maxPlaces)
    (hhandle : (r.add c t).2.2.handle? s = some place) :
    c.handle? s = some place ∨ (s = t ∧ r.given? c t = some place) := by
  obtain ⟨⟨after, hafter⟩, _, _⟩ := h.add hkeyed t (Or.inr hfits)
  by_cases hst : s = t
  · subst hst
    by_cases hlisted : s ∈ r.toList
    · left
      have hne : s ≠ s + 1 := Nat.ne_of_lt (Nat.lt_succ_self s)
      exact h.handle?_of_turns hafter ((h.frees_add hlisted).turns (s + 1)) hne hhandle
    · have hout := h.not_listed hlisted
      cases hocc : c.occupies s with
      | false =>
        rw [h.add_of_gone hout hocc] at hhandle
        exact Or.inl hhandle
      | true =>
        right
        obtain ⟨new, hnew⟩ : ∃ new, r.given? c s = some new := by
          unfold given?
          rw [h.resolve_eq_none hout, hocc]
          exact ⟨_, rfl⟩
        have hsame := h.handle?_of_given hkeyed hfits hnew
        rw [hhandle] at hsame
        exact ⟨rfl, hnew.trans hsame.symm⟩
  · exact Or.inl (h.handle?_of_turns hafter (h.turns_add t hfits) hst hhandle)

end Recency

namespace Shelf

variable {V : Type} {s : Shelf V}

/-- The handle that a request gives, with the entry that gets it. -/
def gives? (s : Shelf V) : Request V Handle → Option (Serial × Handle)
  | .add t => (s.recency.given? s.contents t).map fun place => (t, place)
  | _ => none

/-- The handles that a sequence of requests gives, in order. -/
def given (s : Shelf V) : List (Request V Handle) → List (Serial × Handle)
  | [] => []
  | request :: rest => (s.gives? request).toList ++ (s.step request).2.given rest

/-- How often a place comes to another generation during a sequence of requests. -/
def timesFreed (s : Shelf V) (i : Nat) : List (Request V Handle) → Nat
  | [] => 0
  | request :: rest =>
    (Recency.regenerated s.recency (s.step request).2.recency i).toNat
      + (s.step request).2.timesFreed i rest

/-- Whether somebody who looked before one of the requests, or after all of them, could take this
handle down for this entry. -/
def Recorded (s : Shelf V) (requests : List (Request V Handle)) (t : Serial) (place : Handle) :
    Prop :=
  ∃ earlier, earlier <+: requests ∧ (s.run earlier).2.contents.handle? t = some place

theorem run_append (s : Shelf V) (earlier later : List (Request V Handle)) :
    (s.run (earlier ++ later)).2 = ((s.run earlier).2.run later).2 := by
  induction earlier generalizing s with
  | nil => rfl
  | cons request rest ih => exact ih (s.step request).2

theorem given_append (s : Shelf V) (earlier later : List (Request V Handle)) :
    s.given (earlier ++ later) = s.given earlier ++ (s.run earlier).2.given later := by
  induction earlier generalizing s with
  | nil => rfl
  | cons request rest ih =>
    have hrest := ih (s.step request).2
    change _ ++ (s.step request).2.given (rest ++ later) = _ ++ _ ++ _
    rw [hrest, ← List.append_assoc]
    rfl

theorem timesFreed_append (s : Shelf V) (i : Nat) (earlier later : List (Request V Handle)) :
    s.timesFreed i (earlier ++ later) =
      s.timesFreed i earlier + (s.run earlier).2.timesFreed i later := by
  induction earlier generalizing s with
  | nil => exact (Nat.zero_add _).symm
  | cons request rest ih =>
    have hrest := ih (s.step request).2
    change _ + (s.step request).2.timesFreed i (rest ++ later) = _ + _ + _
    rw [hrest, Nat.add_assoc]
    rfl

theorem timesFreed_le (s : Shelf V) (i : Nat) (requests : List (Request V Handle)) :
    s.timesFreed i requests ≤ requests.length := by
  induction requests generalizing s with
  | nil => exact Nat.le_refl 0
  | cons request rest ih =>
    have hrest := ih (s.step request).2
    have hone := Bool.toNat_le (Recency.regenerated s.recency (s.step request).2.recency i)
    unfold timesFreed
    rw [List.length_cons]
    omega

/-- Each request frees places and then takes one at most. -/
theorem Sound.turns (h : s.Sound) (request : Request V Handle)
    (hfits : (s.step request).2.recency.nodes.size < Recency.maxPlaces) :
    ∃ t, Recency.Turns s.recency (s.step request).2.recency t := by
  obtain ⟨order, hkeeps⟩ := h.keeps
  have hrefl : Recency.Turns s.recency s.recency 0 := (Recency.Frees.refl s.recency).turns 0
  cases request with
  | add t => exact ⟨t, hkeeps.turns_add t hfits⟩
  | hit place => exact ⟨0, (hkeeps.frees_hitAll [place]).turns 0⟩
  | push places => exact ⟨0, (hkeeps.frees_hitAll places).turns 0⟩
  | remove t => exact ⟨0, (hkeeps.frees_remove t).turns 0⟩
  | clear => exact ⟨0, (Recency.frees_clear s.recency s.contents).turns 0⟩
  | drop key => exact ⟨0, hrefl⟩
  | put key value expireAt => exact ⟨0, hrefl⟩
  | restore t => exact ⟨0, hrefl⟩
  | wipe => exact ⟨0, hrefl⟩

/-- No place is freed so often during the requests that its generations start anew. -/
def Lasting (s : Shelf V) (requests : List (Request V Handle)) : Prop :=
  ∀ i, s.recency.timesFreed i + s.timesFreed i requests < 2 ^ 32

/-- What one request does to the generations, and what it leaves for the ones after it. -/
theorem Sound.lasting_step (h : s.Sound) {request : Request V Handle}
    {rest : List (Request V Handle)} (hlasting : s.Lasting (request :: rest))
    (hfits : (s.step request).2.recency.nodes.size < Recency.maxPlaces) :
    Recency.Rises s.recency (s.step request).2.recency ∧ (s.step request).2.Lasting rest := by
  obtain ⟨t, hturns⟩ := h.turns request hfits
  have hbound (i : Nat) : s.recency.timesFreed i +
      (Recency.regenerated s.recency (s.step request).2.recency i).toNat +
        (s.step request).2.timesFreed i rest < 2 ^ 32 := by
    rw [Nat.add_assoc]
    exact hlasting i
  have hfirst (i : Nat) := Nat.lt_of_le_of_lt (Nat.le_add_right _ _) (hbound i)
  refine ⟨hturns.rises hfirst, fun i => ?_⟩
  rw [hturns.timesFreed (hfirst i)]
  exact hbound i

/-- The handles that were given are different, and each still recalls its entry. -/
structure Recalling (s : Shelf V) (notes : List (Serial × Handle)) : Prop where
  recalls : ∀ note ∈ notes, s.recency.Recalls note.2 note.1
  distinct : (notes.map (·.2)).Nodup
  noted : ∀ t place, s.contents.handle? t = some place → (t, place) ∈ notes

theorem Sound.noted_step (h : s.Sound) (request : Request V Handle)
    (hfits : (s.step request).2.recency.nodes.size < Recency.maxPlaces) {t : Serial}
    {place : Handle} (hhandle : (s.step request).2.contents.handle? t = some place) :
    s.contents.handle? t = some place ∨ s.gives? request = some (t, place) := by
  obtain ⟨order, hkeeps⟩ := h.keeps
  obtain ⟨order', hkeeps'⟩ := (h.step request (Or.inr hfits)).sound.keeps
  have hkept (hfrees : Recency.Frees s.recency (s.step request).2.recency) :
      s.contents.handle? t = some place := by
    have hne : t ≠ t + 1 := Nat.ne_of_lt (Nat.lt_succ_self t)
    exact hkeeps.handle?_of_turns hkeeps' (hfrees.turns (t + 1)) hne hhandle
  cases request with
  | add u =>
    rcases hkeeps.handle?_add h.keyed hfits hhandle with hold | ⟨rfl, hgiven⟩
    · exact Or.inl hold
    · exact Or.inr (congrArg (Option.map fun place => (t, place)) hgiven)
  | hit place => exact Or.inl (hkept (hkeeps.frees_hitAll [place]))
  | push places => exact Or.inl (hkept (hkeeps.frees_hitAll places))
  | remove u => exact Or.inl (hkept (hkeeps.frees_remove u))
  | clear => exact Or.inl (hkept (Recency.frees_clear s.recency s.contents))
  | drop key => exact Or.inl (hkept (.refl s.recency))
  | put key value expireAt => exact Or.inl (hkept (.refl s.recency))
  | restore u => exact Or.inl (hkept (.refl s.recency))
  | wipe => exact Or.inl (hkept (.refl s.recency))

theorem Recalling.step {notes : List (Serial × Handle)} (hnotes : s.Recalling notes)
    (h : s.Sound) (request : Request V Handle)
    (hrises : Recency.Rises s.recency (s.step request).2.recency)
    (hfits : (s.step request).2.recency.nodes.size < Recency.maxPlaces) :
    (s.step request).2.Recalling (notes ++ (s.gives? request).toList) := by
  obtain ⟨order, hkeeps⟩ := h.keeps
  obtain ⟨order', hkeeps'⟩ := (h.step request (Or.inr hfits)).sound.keeps
  obtain ⟨u, hturns⟩ := h.turns request hfits
  have hold (note) (hin : note ∈ notes) := (hnotes.recalls note hin).turns hturns hrises
  have hnoted (t : Serial) (place : Handle)
      (hhandle : (s.step request).2.contents.handle? t = some place) :
      (t, place) ∈ notes ++ (s.gives? request).toList := by
    rcases h.noted_step request hfits hhandle with hbefore | hgiven
    · exact List.mem_append_left _ (hnotes.noted t place hbefore)
    · rw [hgiven]
      exact List.mem_append_right _ (List.mem_singleton.mpr rfl)
  cases hgives : s.gives? request with
  | none =>
    rw [hgives] at hnoted
    rw [Option.toList_none, List.append_nil] at hnoted ⊢
    exact ⟨hold, hnotes.distinct, hnoted⟩
  | some new =>
    obtain ⟨t, place⟩ := new
    rw [hgives] at hnoted
    rw [Option.toList_some] at hnoted ⊢
    obtain ⟨rfl, hgiven⟩ : request = .add t ∧ s.recency.given? s.contents t = some place := by
      cases request with
      | add v =>
        unfold gives? at hgives
        obtain ⟨other, hother, heq⟩ := Option.map_eq_some_iff.mp hgives
        cases heq
        exact ⟨rfl, hother⟩
      | _ => cases hgives
    refine ⟨?_, ?_, hnoted⟩
    · intro note hin
      rcases List.mem_append.mp hin with hin | hin
      · exact hold note hin
      · rw [List.mem_singleton] at hin
        cases hin
        exact hkeeps'.recalls (hkeeps.handle?_of_given h.keyed hfits hgiven)
    · rw [List.map_append, List.map_singleton, List.nodup_append]
      refine ⟨hnotes.distinct, List.nodup_singleton _, ?_⟩
      intro old hin new hnew
      obtain ⟨note, hnote, rfl⟩ := List.mem_map.mp hin
      rw [List.mem_singleton.mp hnew]
      exact (hnotes.recalls note hnote).ne_given hkeeps hrises hfits hgiven

theorem Recalling.run {notes : List (Serial × Handle)} (hnotes : s.Recalling notes) (h : s.Sound)
    (requests : List (Request V Handle)) (hlasting : s.Lasting requests)
    (hfits : (s.run requests).2.recency.nodes.size < Recency.maxPlaces) :
    (s.run requests).2.Recalling (notes ++ s.given requests) := by
  induction requests generalizing s notes with
  | nil =>
    unfold given
    rwa [List.append_nil]
  | cons request rest ih =>
    have hnext : (s.step request).2.recency.nodes.size < Recency.maxPlaces :=
      Nat.lt_of_le_of_lt ((s.step request).2.grows_run rest).nodes_size hfits
    obtain ⟨hrises, hlater⟩ := h.lasting_step hlasting hnext
    have hafter := hnotes.step h request hrises hnext
    have hrest := ih hafter (h.step request (Or.inr hnext)).sound hlater hfits
    unfold given
    rwa [← List.append_assoc]

theorem Lasting.earlier {earlier later : List (Request V Handle)}
    (h : s.Lasting (earlier ++ later)) : s.Lasting earlier := by
  intro i
  have hboth := h i
  rw [timesFreed_append] at hboth
  omega

/-- A recorded handle was given during the requests, and still recalls its entry after them. -/
theorem Recalling.of_recorded (hnotes : s.Recalling []) (h : s.Sound)
    {requests : List (Request V Handle)} (hlasting : s.Lasting requests)
    (hfits : (s.run requests).2.recency.nodes.size < Recency.maxPlaces) {t : Serial}
    {place : Handle} (hrecorded : s.Recorded requests t place) :
    (t, place) ∈ s.given requests ∧ (s.run requests).2.recency.Recalls place t := by
  obtain ⟨earlier, ⟨later, rfl⟩, hhandle⟩ := hrecorded
  have hmiddle : (s.run earlier).2.recency.nodes.size < Recency.maxPlaces := by
    rw [run_append] at hfits
    exact Nat.lt_of_le_of_lt ((s.run earlier).2.grows_run later).nodes_size hfits
  have hthen := hnotes.run h earlier hlasting.earlier hmiddle
  have hin : (t, place) ∈ s.given (earlier ++ later) := by
    rw [given_append]
    exact List.mem_append_left _ (hthen.noted t place hhandle)
  exact ⟨hin, (hnotes.run h (earlier ++ later) hlasting hfits).recalls (t, place) hin⟩

theorem recalling_start {n : Nat} {c : Contents V} (hc : Contents.withShards n = .ok c)
    (capacity : Nat) : Recalling ⟨.withCapacity capacity, c⟩ [] where
  recalls note hin := by cases hin
  distinct := List.nodup_nil
  noted t place hhandle := by
    unfold Contents.handle? at hhandle
    rw [Contents.entry?_withShards hc] at hhandle
    cases hhandle

/-- The entries that the notes of a batch move to the front in turn: those that still have the
handle that was noted for them. -/
def current (s : Shelf V) (notes : List (Serial × Handle)) : List Serial :=
  (notes.filter fun note => s.contents.handle? note.1 = some note.2).map (·.1)

theorem foldl_front_named {notes : List (Serial × Handle)}
    (hnamed : ∀ note ∈ notes, s.named? note.2 =
      if s.contents.handle? note.1 = some note.2 then some note.1 else none)
    (listed : List Serial) :
    ((notes.map (·.2)).map s.named?).foldl Ranking.front listed =
      (s.current notes).foldl (fun listed t => t :: listed.erase t) listed := by
  induction notes generalizing listed with
  | nil => rfl
  | cons note rest ih =>
    have hfirst := hnamed note List.mem_cons_self
    have hrest := ih fun other hother => hnamed other (List.mem_cons_of_mem _ hother)
    unfold current at hrest ⊢
    rw [List.map_cons, List.map_cons, List.foldl_cons, hfirst, hrest, List.filter_cons]
    split
    · rename_i hhandle
      simp only [hhandle, decide_true, if_true]
      rfl
    · rename_i hhandle
      simp only [hhandle, decide_false, Bool.false_eq_true, if_false]
      rfl

/-- No handle is given twice, so a handle that was recorded for an entry at some time either moves
this very entry to the front, if the entry still has it, or leaves the list as it is. -/
theorem old_handles_name_own_entry {n capacity : Nat} {c : Contents V}
    (hc : Contents.withShards n = .ok c) {requests : List (Request V Handle)}
    {answers : List (Option Serial)} {s : Shelf V}
    (hrun : (Shelf.mk (.withCapacity capacity) c).run requests = (answers, s))
    (hfits : (0 < capacity ∧ capacity < Recency.maxPlaces) ∨
      s.recency.nodes.size < Recency.maxPlaces)
    (hfreed : ∀ i, (Shelf.mk (.withCapacity capacity) c).timesFreed i requests < 2 ^ 32) :
    (((Shelf.mk (.withCapacity capacity) c).given requests).map (·.2)).Nodup ∧
    (∀ t place, (Shelf.mk (.withCapacity capacity) c).Recorded requests t place →
      (t, place) ∈ (Shelf.mk (.withCapacity capacity) c).given requests ∧
      (s.contents.handle? t = some place → t ∈ s.recency.toList ∧
        (s.recency.hit place).toList = t :: s.recency.toList.erase t) ∧
      (s.contents.handle? t ≠ some place → s.recency.hit place = s.recency)) ∧
    ∀ notes : List (Serial × Handle),
      (∀ note ∈ notes,
        (Shelf.mk (.withCapacity capacity) c).Recorded requests note.1 note.2) →
      (s.recency.hitAll (notes.map (·.2))).toList =
        (s.current notes).foldl (fun listed t => t :: listed.erase t) s.recency.toList := by
  have hstart := sound_start hc capacity
  obtain ⟨hsound, _⟩ := hstart.run requests (fitting_run requests (by rwa [hrun]))
  obtain ⟨order, hkeeps⟩ := hsound.keeps
  have hplaces := hkeeps.fits
  have hlasting : (Shelf.mk (.withCapacity capacity) c).Lasting requests := by
    intro i
    have hnone : (Recency.withCapacity capacity).timesFreed i = 0 := rfl
    rw [hnone, Nat.zero_add]
    exact hfreed i
  have hrecalling := (recalling_start hc capacity).run hstart requests hlasting hplaces
  have hrecorded {t : Serial} {place : Handle}
      (h : (Shelf.mk (.withCapacity capacity) c).Recorded requests t place) :=
    (recalling_start hc capacity).of_recorded hstart hlasting hplaces h
  rw [hrun] at hkeeps hrecorded
  have hnamed {t : Serial} {place : Handle}
      (h : (Shelf.mk (.withCapacity capacity) c).Recorded requests t place) :
      s.named? place = if s.contents.handle? t = some place then some t else none :=
    (hrecorded h).2.named? hkeeps
  refine ⟨hrecalling.distinct, ?_, ?_⟩
  · intro t place h
    have hstands := hnamed h
    refine ⟨(hrecorded h).1, ?_, ?_⟩
    · intro hhandle
      rw [if_pos hhandle] at hstands
      refine ⟨(hkeeps.named?_eq_some.mp hstands).1, ?_⟩
      rw [hkeeps.hit_toList, hstands]
      rfl
    · intro hother
      rw [if_neg hother] at hstands
      exact hkeeps.hit_of_unnamed hstands
  · intro notes hnotes
    rw [hkeeps.hitAll_toList_named]
    exact foldl_front_named (fun note hin => hnamed (hnotes note hin)) s.recency.toList

/-- With room for one entry, the handle of `a` leads to the node that `b` got after it, and does
nothing any more. -/
theorem old_handles_name_own_entry_evicted :
    ∃ (c : Contents Nat) (s : Shelf Nat) (place : Handle),
      (Shelf.mk (.withCapacity 1) c).run [.put "a" 1 none, .add 0, .put "b" 2 none, .add 1] =
        ([none, none, none, some 0], s) ∧
      (Shelf.run (Shelf.mk (.withCapacity 1) c)
        [.put "a" 1 none, .add 0]).2.contents.handle? 0 = some place ∧
      s.recency.toList = [1] ∧ s.recency.hit place = s.recency := by
  obtain ⟨c, hc⟩ : ∃ c : Contents Nat, Contents.withShards 4 = .ok c := ⟨_, rfl⟩
  let earlier : List (Request Nat Handle) := [.put "a" 1 none, .add 0]
  let requests : List (Request Nat Handle) := earlier ++ [.put "b" 2 none, .add 1]
  obtain ⟨answers, s, hrun⟩ : ∃ answers s,
    (Shelf.mk (.withCapacity 1) c).run requests = (answers, s) := ⟨_, _, rfl⟩
  have hstart := sound_start hc 1
  obtain ⟨hsound, hranked⟩ :=
    hstart.run requests (fitting_run requests (Or.inl (by decide)))
  obtain ⟨hbefore, hfirst⟩ := hstart.run earlier (fitting_run earlier (Or.inl (by decide)))
  have hnamed : (Shelf.mk (.withCapacity 1) c).named requests =
    [.put "a" 1 none, .add 0, .put "b" 2 none, .add 1] := rfl
  have hnamed' : (Shelf.mk (.withCapacity 1) c).named earlier = [.put "a" 1 none, .add 0] := rfl
  rw [ranking_start hc, hnamed] at hranked
  rw [ranking_start hc, hnamed'] at hfirst
  have hlisted : ((Shelf.mk (.withCapacity 1) c).run earlier).2.ranking.listed = [0] :=
    congrArg (·.2.listed) hfirst.symm
  have hafter : ((Shelf.mk (.withCapacity 1) c).run requests).2.ranking.listed = [1] :=
    congrArg (·.2.listed) hranked.symm
  have hanswers : ((Shelf.mk (.withCapacity 1) c).run requests).1 = [none, none, none, some 0] :=
    congrArg (·.1) hranked.symm
  rw [ranking_listed] at hlisted hafter
  rw [hrun] at hsound hafter hanswers
  obtain ⟨order, hkeeps⟩ := hbefore.keeps
  obtain ⟨order', hkeeps'⟩ := hsound.keeps
  obtain ⟨place, hplace⟩ := Option.isSome_iff_exists.mp
    (hkeeps.isSome_handle?_iff.mpr (by rw [hlisted]; exact List.mem_singleton.mpr rfl))
  have hgone : s.contents.handle? 0 ≠ some place := by
    intro hhandle
    have hin := hkeeps'.isSome_handle?_iff.mp (Option.isSome_of_eq_some hhandle)
    rw [hafter] at hin
    simp at hin
  obtain ⟨_, hnotes, _⟩ := old_handles_name_own_entry hc hrun (Or.inl (by decide)) fun i =>
    Nat.lt_of_le_of_lt (timesFreed_le _ i requests) (by decide)
  have hrecorded := hnotes 0 place ⟨earlier, List.prefix_append _ _, hplace⟩
  exact ⟨c, s, place, hanswers ▸ hrun, hplace, hafter, hrecorded.2.2 hgone⟩

end Shelf

end TimedCache
