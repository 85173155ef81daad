import TimedCache.Proofs.Cache.Linking

/-!
How the slots and the list agree. An entry that is linked has a slot, or it was deleted and the
worker has yet to come to the deletion, or it never hears of it. So once the worker has done
everything, the slots and the list hold the same entries, but for those of which it never heard.
-/

namespace TimedCache

namespace Contents

/-- A list of just the entries that have a slot has no two of one key, and is as long as there are
occupied slots. -/
theorem WellKeyed.keys_of_occupants {V : Type} {c : Contents V} (h : c.WellKeyed)
    {held : List Serial} (hnodup : held.Nodup)
    (hheld : ∀ t, t ∈ held ↔ ∃ key, c.occupant? key = some t) :
    (held.filterMap c.keyOf).Nodup ∧ c.size = held.length := by
  have hkey {t : Serial} (ht : t ∈ held) {key : String} (hs : c.keyOf t = some key) :
      c.occupant? key = some t := by
    obtain ⟨other, hother⟩ := (hheld t).mp ht
    cases (h.keyOf_of_occupant hother).symm.trans hs
    exact hother
  have hkeys : (held.filterMap c.keyOf).Nodup := by
    refine List.pairwise_filterMap.mpr (hnodup.imp_of_mem ?_)
    intro t u ht hu hne key hs other hother heq
    have hfirst := hkey ht hs
    rw [heq, hkey hu hother] at hfirst
    exact hne (Option.some.inj hfirst).symm
  exact ⟨hkeys, h.size_eq hnodup hheld⟩

end Contents

namespace Cache

variable {V : Type} {c : Cache V}

/-- A caller who stores a value takes no entry's slot away. -/
theorem lodge_keeps (h : c.contents.WellKeyed) (key : String) (value : V) (ttl : Span)
    (wait : Bool) {other : String} {t : Serial} (ht : c.contents.occupant? other = some t) :
    (c.lodge key value ttl wait).2.contents.occupant? other = some t := by
  have hstep := c.lodge_step h 0 key value ttl wait
  change c.outline.slot other = some t at ht
  change (c.lodge key value ttl wait).2.outline.slot other = some t
  generalize c.outline = o at ht hstep
  generalize (c.lodge key value ttl wait).2.outline = o' at hstep
  cases hstep with
  | idle | refuse | renew => exact ht
  | enter hvacant =>
    dsimp only
    rwa [Function.update_of_ne]
    rintro rfl
    rw [hvacant] at ht
    cases ht

/-- After an operation, a linked entry was linked before or has a slot. A linked entry keeps the slot
that it has, and is not the one that was deleted. -/
theorem drawn_listed {order : List Recency.Spot} {op : WriteOp}
    (h : c.recency.Keeps c.contents order) (hkeyed : c.contents.WellKeyed)
    (hfits : (c.drawn op).recency.Fitting) {t : Serial} (ht : t ∈ (c.drawn op).recency.toList) :
    (t ∈ c.recency.toList ∨ ∃ key, (c.drawn op).contents.occupant? key = some t) ∧
      op.deleted? ≠ some t ∧
      ∀ key, c.contents.occupant? key = some t → (c.drawn op).contents.occupant? key = some t := by
  have hadd (s : Serial) (hfits : (c.added s).recency.Fitting)
      (ht : t ∈ (c.added s).recency.toList) :
      (t ∈ c.recency.toList ∨ ∃ key, (c.added s).contents.occupant? key = some t) ∧
        ∀ key, c.contents.occupant? key = some t →
          (c.added s).contents.occupant? key = some t := by
    obtain ⟨_, hlist, hvictim⟩ := h.add hkeyed s hfits
    have hvacated := (Recency.add_vacated hkeyed c.recency s).1
    change t ∈ (c.recency.add c.contents s).2.1.toList at ht
    rw [hlist] at ht
    have hkept (key : String) (hs : c.contents.occupant? key = some t) :
        (c.added s).contents.occupant? key = some t := by
      refine (hvacated.occupant_iff key t).mpr ⟨hs, ?_⟩
      intro heq
      rw [hvictim] at heq
      exact (Recency.victim_spec heq h.nodup_toList).2.2.2 ht
    refine ⟨(Recency.mem_of_mem_refreshed ht).imp_right ?_, hkept⟩
    rintro ⟨rfl, hocc⟩
    obtain ⟨key, hs⟩ := hkeyed.occupies_iff_exists.mp hocc
    exact ⟨key, hkept key hs⟩
  cases op with
  | set s =>
    obtain ⟨hlisted, hkept⟩ := hadd s hfits ht
    exact ⟨hlisted, nofun, hkept⟩
  | update s =>
    obtain ⟨hlisted, hkept⟩ := hadd s hfits ht
    exact ⟨hlisted, nofun, hkept⟩
  | delete s =>
    change t ∈ (c.recency.remove c.contents s).2.1.toList at ht
    rw [(h.remove s).2.1] at ht
    have hne : s ≠ t := by
      rintro rfl
      exact h.nodup_toList.not_mem_erase ht
    refine ⟨Or.inl (List.mem_of_mem_erase ht), fun heq => hne (Option.some.inj heq), ?_⟩
    intro key hs
    have hvacated := Recency.remove_vacated hkeyed c.recency s
    exact (hvacated.occupant_iff key t).mpr ⟨hs, fun heq => hne (Option.some.inj heq)⟩
  | clear =>
    change t ∈ (c.recency.clear c.contents).1.toList at ht
    rw [h.clear.toList_eq] at ht
    cases ht
  | flush => exact ⟨Or.inl ht, nofun, fun _ hs => hs⟩

end Cache

namespace System

variable {V : Type} {s : System V}

/-- The arena of a bounded list does not outgrow its handles. -/
theorem fitting_of_bounded {options : Options V} {clock : Clock} {c : Cache V}
    (hc : Cache.create options clock = .ok c) (hpos : 0 < options.capacity)
    (hfits : options.capacity < Recency.maxPlaces) (moves : List (Move V)) :
    (({ cache := c } : System V).run moves).cache.recency.Fitting := by
  left
  rw [capacity_run hc moves]
  exact ⟨hpos, hfits⟩

/-- What holds of an entry that is linked after a move: it was linked before or has a slot, and it has
lost a slot to a caller's deletion only. -/
structure Stays (s : System V) (move : Move V) (t : Serial) : Prop where
  linked : t ∈ s.cache.recency.toList ∨ ∃ key, (s.step move).cache.contents.occupant? key = some t
  kept : ∀ key, s.cache.contents.occupant? key = some t →
    (s.step move).cache.contents.occupant? key = some t ∨ t ∈ (s.step move).detached ∨
      s.unheard? move = some t

theorem Stays.of_same {move : Move V} {t : Serial}
    (hcontents : (s.step move).cache.contents = s.cache.contents)
    (ht : t ∈ s.cache.recency.toList) : s.Stays move t := by
  refine ⟨Or.inl ht, ?_⟩
  rw [hcontents]
  exact fun _ hs => Or.inl hs

theorem Arranged.stays_workWrite (h : s.Arranged) (hfits : (s.step .workWrite).cache.recency.Fitting)
    {t : Serial} (ht : t ∈ (s.step .workWrite).cache.recency.toList) :
    s.Stays .workWrite t ∧ s.buried? .workWrite ≠ some t := by
  obtain ⟨order, hkeeps⟩ := h.keeps ((s.step_onward .workWrite).1.fitting hfits)
  unfold buried?
  cases hitems : s.cache.writes.items with
  | nil =>
    have hidle : s.step .workWrite = s := by
      change ({ s with cache := s.cache.workWrite } : System V) = s
      rw [Cache.workWrite_of_nil hitems]
    rw [hidle] at ht
    exact ⟨.of_same (congrArg (·.cache.contents) hidle) ht, nofun⟩
  | cons op rest =>
    obtain ⟨haside, _, _⟩ := Cache.workWrite_aside hitems
    change t ∈ s.cache.workWrite.recency.toList at ht
    change s.cache.workWrite.recency.Fitting at hfits
    rw [haside.recency] at ht hfits
    obtain ⟨hlisted, hdeleted, hkept⟩ :=
      Cache.drawn_listed (c := s.cache.received rest) hkeeps h.coherent.keyed hfits ht
    rw [← haside.contents] at hlisted hkept
    exact ⟨⟨hlisted, fun key hs => Or.inl (hkept key hs)⟩, hdeleted⟩

theorem Arranged.stays_workFired (h : s.Arranged) (hfits : (s.step .workFired).cache.recency.Fitting)
    {t : Serial} (ht : t ∈ (s.step .workFired).cache.recency.toList) :
    s.Stays .workFired t := by
  obtain ⟨order, hkeeps⟩ := h.keeps ((s.step_onward .workFired).1.fitting hfits)
  obtain ⟨base, haside, _, _, hbase⟩ := s.cache.workFired_aside
  have hcontents' : (s.step .workFired).cache.contents = base.contents := haside.contents
  change t ∈ s.cache.workFired.recency.toList at ht
  change s.cache.workFired.recency.Fitting at hfits
  rw [haside.recency] at ht hfits
  rcases hbase with ⟨hcontents, hrecency⟩ | ⟨_, _, _, u, _, _, hcontents, hrecency⟩
  · rw [hrecency] at ht
    exact .of_same (hcontents'.trans hcontents) ht
  · rw [hrecency] at ht hfits
    replace hfits : (s.cache.drawn (.delete u)).recency.Fitting := hfits
    obtain ⟨hlisted, _, hkept⟩ := Cache.drawn_listed hkeeps h.coherent.keyed hfits ht
    replace hcontents' : (s.step .workFired).cache.contents = (s.cache.drawn (.delete u)).contents :=
      hcontents'.trans hcontents
    rw [← hcontents'] at hlisted hkept
    exact ⟨hlisted, fun key hs => Or.inl (hkept key hs)⟩

/-- A linked entry stays, and is not one to whose deletion the worker came. -/
theorem Arranged.step_listed (h : s.Arranged) (move : Move V)
    (hfits : (s.step move).cache.recency.Fitting) {t : Serial}
    (ht : t ∈ (s.step move).cache.recency.toList) :
    s.Stays move t ∧ s.buried? move ≠ some t := by
  have hdistant (hmove : move.distant = true) : s.Stays move t := by
    obtain ⟨hcontents, hrecency⟩ := s.step_of_distant hmove
    exact .of_same hcontents (hrecency ▸ ht)
  cases move with
  | store key value ttl wait =>
    rw [s.recency_of_caller rfl] at ht
    refine ⟨⟨Or.inl ht, ?_⟩, nofun⟩
    exact fun other hs => Or.inl (Cache.lodge_keeps h.coherent.keyed key value ttl wait hs)
  | strandSet key value ttl =>
    rw [s.recency_of_caller rfl] at ht
    refine ⟨⟨Or.inl ht, fun other hs => Or.inl ?_⟩, nofun⟩
    rw [step_strandSet]
    exact Cache.written_keeps hs value ttl
  | detach key =>
    rw [s.recency_of_caller rfl] at ht
    refine ⟨⟨Or.inl ht, fun other hs => ?_⟩, nofun⟩
    rw [step_detach, Contents.occupant?_takeKey]
    split
    · rename_i heq
      rw [← heq] at hs
      exact Or.inr (Or.inl (List.mem_append_left _ (Option.mem_toList.mpr hs)))
    · exact Or.inl hs
  | strandDelete key =>
    rw [s.recency_of_caller rfl] at ht
    refine ⟨⟨Or.inl ht, fun other hs => ?_⟩, nofun⟩
    rw [step_strandDelete, Contents.occupant?_takeKey]
    split
    · rename_i heq
      rw [← heq] at hs
      exact Or.inr (Or.inr hs)
    · exact Or.inl hs
  | workWrite => exact h.stays_workWrite hfits ht
  | workRead =>
    obtain ⟨order, hkeeps⟩ := h.keeps ((s.step_onward .workRead).1.fitting hfits)
    obtain ⟨reads, places, heq⟩ := s.cache.workRead_frame
    have hstep : s.step .workRead =
        { s with cache := { s.cache with reads, recency := s.cache.recency.hitAll places } } :=
      congrArg (fun c => ({ s with cache := c } : System V)) heq
    obtain ⟨order', hhit, hperm⟩ := hkeeps.hitAll places
    rw [hstep] at ht
    change t ∈ (s.cache.recency.hitAll places).toList at ht
    rw [hhit.toList_eq, (hperm.map _).mem_iff, ← hkeeps.toList_eq] at ht
    exact ⟨.of_same (congrArg (·.cache.contents) hstep) ht, nofun⟩
  | workFired => exact ⟨h.stays_workFired hfits ht, nofun⟩
  | _ => exact ⟨hdistant rfl, nofun⟩

/-- A linked entry has a slot, is owed to the worker or is among those of whose deletion the worker
never hears. -/
def Accounted (s : System V) (unheard : List Serial) : Prop :=
  s.cache.recency.Fitting → s.cache.isClosed = false → ∀ t ∈ s.cache.recency.toList,
    (∃ key, s.cache.contents.occupant? key = some t) ∨ t ∈ s.owed ∨ t ∈ unheard

theorem Accounted.step {unheard : List Serial} (ha : s.Accounted unheard) (h : s.Arranged)
    (move : Move V) : (s.step move).Accounted (unheard ++ (s.unheard? move).toList) := by
  intro hfits halive t ht
  obtain ⟨hgrows, hopen⟩ := s.step_onward move
  obtain ⟨⟨hlisted, hkept⟩, hburied⟩ := h.step_listed move hfits ht
  have hnow (hunheard : s.unheard? move = some t) :
      t ∈ unheard ++ (s.unheard? move).toList :=
    List.mem_append_right _ (Option.mem_toList.mpr hunheard)
  rcases hlisted with hold | hnew
  · rcases ha (hgrows.fitting hfits) (hopen halive) t hold with ⟨key, hs⟩ | howed | hin
    · rcases hkept key hs with hs' | hdetached | hunheard
      · exact Or.inl ⟨key, hs'⟩
      · exact Or.inr (Or.inl (mem_owed.mpr (Or.inl hdetached)))
      · exact Or.inr (Or.inr (hnow hunheard))
    · rcases s.owed_step halive howed with hafter | hunheard | hdone
      · exact Or.inr (Or.inl hafter)
      · exact Or.inr (Or.inr (hnow hunheard))
      · exact absurd hdone hburied
    · exact Or.inr (Or.inr (List.mem_append_left _ hin))
  · exact Or.inl hnew

theorem Accounted.run {unheard : List Serial} (ha : s.Accounted unheard) (h : s.Arranged)
    (moves : List (Move V)) : (s.run moves).Accounted (unheard ++ s.along unheard? moves) := by
  refine (run_preserves_along (P := fun unheard s => s.Arranged ∧ s.Accounted unheard) ?_ ⟨h, ha⟩
    moves).2
  exact fun _ _ move hs => ⟨hs.1.step move, hs.2.step hs.1 move⟩

theorem accounted_create {options : Options V} {clock : Clock} {c : Cache V}
    (h : Cache.create options clock = .ok c) : ({ cache := c } : System V).Accounted [] := by
  obtain ⟨contents, _, rfl⟩ := Cache.create_eq_ok h
  intro _ _ t ht
  cases ht

/-- While the worker lives and has nothing to do, the list holds the entries that have a slot and
those of whose deletion the worker has never heard, but for the entries of callers who have failed
for want of a deadline. So if there are none of these, slots and list hold the same entries, each
key once. -/
theorem listed_iff_occupant {options : Options V} {clock : Clock} {c : Cache V}
    (hc : Cache.create options clock = .ok c) {start : System V} (hstart : start = { cache := c })
    {moves : List (Move V)} {s : System V} (hs : start.run moves = s)
    (halive : s.cache.isClosed = false) (hdrained : s.cache.writes.items = [])
    (htold : s.detached = []) (hfits : s.cache.recency.Fitting) :
    (∀ t ∈ s.cache.recency.toList,
      (∃ key, s.cache.contents.occupant? key = some t) ∨ t ∈ start.along unheard? moves) ∧
    (∀ key t, s.cache.contents.occupant? key = some t →
      t ∈ s.cache.recency.toList ∨ t ∈ start.along stranded? moves) ∧
    s.cache.recency.toList.Nodup ∧ s.cache.recency.size = s.cache.recency.toList.length ∧
    (start.along unheard? moves = [] → start.along stranded? moves = [] →
      (∀ t, t ∈ s.cache.recency.toList ↔ ∃ key, s.cache.contents.occupant? key = some t) ∧
      (s.cache.recency.keys s.cache.contents).Nodup ∧
      s.cache.size = s.cache.recency.toList.length) := by
  subst hstart
  have harranged : s.Arranged := hs ▸ (arranged_create hc).run moves
  have haccounted := (accounted_create hc).run (arranged_create hc) moves
  have hcovered := (covered_create hc).run (arranged_create hc) moves
  rw [hs, List.nil_append] at haccounted hcovered
  obtain ⟨order, hkeeps⟩ := harranged.keeps hfits
  have hlisted (t : Serial) (ht : t ∈ s.cache.recency.toList) :
      (∃ key, s.cache.contents.occupant? key = some t) ∨
        t ∈ ({ cache := c } : System V).along unheard? moves := by
    rcases haccounted hfits halive t ht with hslot | howed | hin
    · exact Or.inl hslot
    · rw [mem_owed, htold, hdrained] at howed
      exact howed.elim nofun nofun
    · exact Or.inr hin
  have hoccupied (key : String) (t : Serial) (ht : s.cache.contents.occupant? key = some t) :
      t ∈ s.cache.recency.toList ∨ t ∈ ({ cache := c } : System V).along stranded? moves := by
    refine (hcovered hfits halive key t ht).imp_right fun hin => hin.resolve_left ?_
    rw [hdrained]
    exact List.not_mem_nil
  refine ⟨hlisted, hoccupied, hkeeps.nodup_toList, ?_, ?_⟩
  · rw [hkeeps.size_eq, hkeeps.toList_eq, List.length_map]
  intro hheard hnone
  have hsame (t : Serial) :
      t ∈ s.cache.recency.toList ↔ ∃ key, s.cache.contents.occupant? key = some t := by
    rw [hheard] at hlisted
    rw [hnone] at hoccupied
    refine ⟨fun ht => (hlisted t ht).resolve_right List.not_mem_nil, ?_⟩
    rintro ⟨key, ht⟩
    exact (hoccupied key t ht).resolve_right List.not_mem_nil
  obtain ⟨hkeys, hsize⟩ :=
    harranged.coherent.keyed.keys_of_occupants hkeeps.nodup_toList hsame
  exact ⟨hsame, hkeys, hsize⟩

/-- A value of which the worker is never told is found, but not listed. -/
theorem listed_iff_occupant_stranded :
    ∃ c : Cache Nat, Cache.create { capacity := 2 } { unix := 0 } = .ok c ∧
      let start : System Nat := { cache := c }
      let moves := [.store "a" 1 .zero false, .workWrite, .strandSet "b" 2 .zero]
      let s := start.run moves
      start.along unheard? moves = [] ∧ start.along stranded? moves = [1] ∧
        s.cache.recency.toList = [0] ∧ s.cache.contents.occupant? "a" = some 0 ∧
        s.cache.contents.occupant? "b" = some 1 ∧
        ∀ key t, s.cache.contents.occupant? key = some t → t ∈ [0] ∨ t ∈ [1] := by
  let options : Options Nat := { capacity := 2 }
  obtain ⟨c, hc⟩ := Cache.exists_create (show options.shards ≤ _ by decide) { unix := 0 }
  refine ⟨c, hc, ?_⟩
  intro start moves s
  let linked := start.run [.store "a" 1 .zero false, .workWrite]
  obtain ⟨hlist, hnext, hslots, hempty, hopen, htold⟩ : linked.cache.recency.toList = [0] ∧
      linked.cache.nextSerial = 1 ∧
      (∀ key, linked.cache.contents.occupant? key = if "a" = key then some 0 else none) ∧
      linked.cache.writes.items = [] ∧ linked.cache.isClosed = false ∧ linked.detached = [] := by
    obtain ⟨recency, place, hlist, hrun⟩ := linked_first hc (by decide) "a" 1 .zero false
    obtain ⟨_, hnext, _, hslots⟩ := Cache.contents_first hc "a" 1 .zero place
    rw [show linked = _ from hrun]
    refine ⟨hlist, hnext, hslots, ?_⟩
    obtain ⟨_, _, rfl⟩ := Cache.create_eq_ok hc
    exact ⟨rfl, rfl, rfl⟩
  have hvacant : linked.cache.contents.occupant? "b" = none := (hslots "b").trans (if_neg (by decide))
  have hlast : s = { linked with
      cache := { linked.cache with contents := linked.cache.written "b" 2 .zero } } :=
    linked.step_strandSet "b" 2 .zero
  have hoccupants (key : String) : s.cache.contents.occupant? key =
      if "b" = key then some 1 else if "a" = key then some 0 else none := by
    rw [hlast]
    refine (linked.cache.occupant?_written "b" 2 .zero key).trans ?_
    rw [hvacant, hnext, hslots key]
    rfl
  have hunheard : start.along unheard? moves = [] := rfl
  have hstranded : start.along stranded? moves = [1] := by
    change (linked.stranded? (.strandSet "b" 2 .zero)).toList ++ [] = [1]
    unfold stranded?
    dsimp only
    rw [hnext, if_pos hvacant]
    rfl
  obtain ⟨hlisted, halive, hdrained, hheard⟩ : s.cache.recency.toList = [0] ∧
      s.cache.isClosed = false ∧ s.cache.writes.items = [] ∧ s.detached = [] := by
    rw [hlast]
    exact ⟨hlist, hopen, hempty, htold⟩
  have hfits : s.cache.recency.Fitting := fitting_of_bounded hc (by decide) (by decide) moves
  have hcovered := (listed_iff_occupant hc rfl rfl halive hdrained hheard hfits).2.1
  rw [hlisted, hstranded] at hcovered
  refine ⟨hunheard, hstranded, hlisted, ?_, ?_, hcovered⟩
  · rw [hoccupants, if_neg (by decide), if_pos rfl]
  · rw [hoccupants, if_pos rfl]

end System

end TimedCache
