import TimedCache.Proofs.Cache.Outline
import TimedCache.Proofs.Sequential.Notes

/-!
Contents and list as records. What readers find is some records, and the list is that of some
records. While nothing is queued and no caller has failed, these are the same: one list of records
tells the contents, the order of use and what readers see. Each operation of the recency list is an
operation on records.
-/

namespace TimedCache

open Reference (without touch)

/-- Readers see an entry as the record says. -/
def Contents.Shows {V : Type} (c : Contents V) (r : Record V) : Prop :=
  c.shown? r.serial = some (r.key, r.value, r.stamp)

theorem Contents.Shows.entry {V : Type} {c : Contents V} {r : Record V} (h : c.Shows r) :
    ∃ e, c.entry? r.serial = some e ∧ e.key = r.key ∧ e.value = r.value ∧ e.expireAt = r.stamp := by
  unfold Shows shown? at h
  obtain ⟨e, he, hfields⟩ := Option.map_eq_some_iff.mp h
  simp only [Prod.mk.injEq] at hfields
  exact ⟨e, he, hfields⟩

/-- What readers find is some records. -/
structure Finds {V : Type} (c : Contents V) (records : List (Record V)) : Prop where
  wellKeyed : c.WellKeyed
  keyed : (records.map (·.key)).Nodup
  occupant_iff : ∀ key s, c.occupant? key = some s ↔ ∃ r ∈ records, r.key = key ∧ r.serial = s
  shown : ∀ r ∈ records, c.Shows r

/-- The list is that of some records, the most recently used first. -/
structure Lists {V : Type} (c : Contents V) (r : Recency) (records : List (Record V)) : Prop where
  chained : ∃ order, r.Keeps c order
  listed : r.toList = records.map (·.serial)
  keyed : (records.map (·.key)).Nodup
  named : ∀ r ∈ records, c.keyOf r.serial = some r.key

/-- Contents and list are those of some records, the most recently used first. -/
structure Holds {V : Type} (c : Contents V) (r : Recency) (records : List (Record V)) : Prop
    extends Finds c records where
  chained : ∃ order, r.Keeps c order
  listed : r.toList = records.map (·.serial)

variable {V : Type} {c c' : Contents V} {recency : Recency} {records : List (Record V)}

/-- A record is told from another by its number or by its key. -/
theorem Contents.serial_eq_iff (hkeyed : (records.map (·.key)).Nodup)
    (hnamed : ∀ r ∈ records, c.keyOf r.serial = some r.key) {r r' : Record V} (hr : r ∈ records)
    (hr' : r' ∈ records) : r'.serial = r.serial ↔ r'.key = r.key := by
  constructor
  · intro heq
    have hkey := hnamed r' hr'
    rw [heq, hnamed r hr] at hkey
    exact (Option.some.inj hkey).symm
  · intro heq
    rw [List.inj_on_of_nodup_map hkeyed hr' hr heq]

namespace Finds

theorem of_empty (hkeyed : c.WellKeyed) (hvacant : ∀ key, c.occupant? key = none) :
    Finds c [] where
  wellKeyed := hkeyed
  keyed := List.nodup_nil
  occupant_iff key s := by simp [hvacant key]
  shown := nofun

theorem of_cleared (c : Contents V) : Finds c.clearSlots [] :=
  of_empty Contents.WellKeyed.clearSlots fun key => Contents.occupant?_clearSlots c key

theorem occupant (h : Finds c records) {r : Record V} (hr : r ∈ records) :
    c.occupant? r.key = some r.serial :=
  (h.occupant_iff _ _).mpr ⟨r, hr, rfl, rfl⟩

theorem named (h : Finds c records) {r : Record V} (hr : r ∈ records) :
    c.keyOf r.serial = some r.key :=
  h.wellKeyed.keyOf_of_occupant (h.occupant hr)

theorem serial_eq_iff (h : Finds c records) {r r' : Record V} (hr : r ∈ records)
    (hr' : r' ∈ records) : r'.serial = r.serial ↔ r'.key = r.key :=
  Contents.serial_eq_iff h.keyed (fun _ => h.named) hr hr'

theorem serials (h : Finds c records) : (records.map (·.serial)).Nodup :=
  (List.Nodup.of_map _ h.keyed).map_on fun _ hr _ hr' heq =>
    List.inj_on_of_nodup_map h.keyed hr hr' ((h.serial_eq_iff hr' hr).mp heq)

theorem made (h : Finds c records) {r : Record V} (hr : r ∈ records) :
    r.serial < c.entries.size := by
  obtain ⟨e, he, _⟩ := (h.shown r hr).entry
  exact Contents.lt_size_of_made he

theorem occupies (h : Finds c records) {r : Record V} (hr : r ∈ records) :
    c.occupies r.serial = true :=
  h.wellKeyed.occupies_of_occupant? (h.occupant hr)

theorem vacant (h : Finds c records) {key : String} (hkey : ∀ r ∈ records, r.key ≠ key) :
    c.occupant? key = none := by
  rw [Option.eq_none_iff_forall_ne_some]
  intro s hs
  obtain ⟨r, hr, hsame, _⟩ := (h.occupant_iff key s).mp hs
  exact hkey r hr hsame

theorem size (h : Finds c records) : c.size = records.length := by
  rw [← List.length_map (·.serial)]
  refine h.wellKeyed.size_eq h.serials fun s => ⟨fun hin => ?_, ?_⟩
  · obtain ⟨r, hr, rfl⟩ := List.mem_map.mp hin
    exact ⟨r.key, h.occupant hr⟩
  · rintro ⟨key, hs⟩
    obtain ⟨r, hr, _, rfl⟩ := (h.occupant_iff key s).mp hs
    exact List.mem_map_of_mem hr

theorem isEmpty (h : Finds c records) : c.slots.isEmpty = records.isEmpty := by
  rw [Bool.eq_iff_iff, Store.isEmpty_iff_size, List.isEmpty_iff_length_eq_zero, ← h.size]
  rfl

theorem mem_without (h : Finds c records) {r r' : Record V} (hr : r ∈ records) :
    r' ∈ without records r.serial ↔ r' ∈ records ∧ r'.key ≠ r.key := by
  rw [Reference.mem_without]
  exact and_congr_right fun hr' => not_congr (h.serial_eq_iff hr hr')

theorem perm (h : Finds c records) {records' : List (Record V)} (hperm : records'.Perm records) :
    Finds c records' where
  wellKeyed := h.wellKeyed
  keyed := (hperm.map (·.key)).nodup_iff.mpr h.keyed
  occupant_iff key s := by
    rw [h.occupant_iff]
    simp only [hperm.mem_iff]
  shown r hr := h.shown r (hperm.mem_iff.mp hr)

/-- An entry at most loses its slot. -/
theorem of_vacated (h : Finds c records) {gone : Option Serial} {kept : List (Record V)}
    (hvacated : c.Vacated c' gone) (hsub : kept.Sublist records)
    (hkept : ∀ r ∈ records, r ∈ kept ↔ gone ≠ some r.serial) : Finds c' kept where
  wellKeyed := hvacated.wellKeyed
  keyed := h.keyed.sublist (hsub.map _)
  occupant_iff key s := by
    rw [hvacated.occupant_iff, h.occupant_iff]
    constructor
    · rintro ⟨⟨r, hr, hkey, rfl⟩, hne⟩
      exact ⟨r, (hkept r hr).mpr hne, hkey, rfl⟩
    · rintro ⟨r, hr, hkey, rfl⟩
      have hold := hsub.subset hr
      exact ⟨⟨r, hold, hkey, rfl⟩, (hkept r hold).mp hr⟩
  shown r hr := (hvacated.shown r.serial).trans (h.shown r (hsub.subset hr))

theorem lost (h : Finds c records) {s : Serial} (hvacated : c.Vacated c' (some s)) :
    Finds c' (without records s) :=
  h.of_vacated hvacated List.filter_sublist fun r hr => by
    rw [Reference.mem_without, ne_eq (some s), Option.some.injEq, eq_comm (a := s)]
    exact and_iff_right hr

/-- A value is written over another, or to a new entry. -/
theorem overwrite (h : Finds c records) {r : Record V} (hr : r ∈ records) (value : V)
    (stamp : Option Nat) :
    Finds (c.modify r.serial (·.overwrite value stamp))
      ({ r with value, stamp } :: without records r.serial) where
  wellKeyed := h.wellKeyed.modify r.serial _ fun e => e.key_overwrite value stamp
  keyed := ((Reference.without_perm h.serials hr).map (·.key)).nodup_iff.mpr h.keyed
  occupant_iff key s := by
    rw [Contents.occupant?_modify, h.occupant_iff]
    simp only [← (Reference.without_perm h.serials hr).mem_iff, List.exists_mem_cons_iff]
  shown r' hr' := by
    obtain ⟨e, he, hkey, _⟩ := (h.shown r hr).entry
    unfold Contents.Shows Contents.shown?
    rw [Contents.entry?_modify]
    rcases List.mem_cons.mp hr' with rfl | hin
    · simp [he, hkey, Entry.overwrite]
    · obtain ⟨hold, hne⟩ := Reference.mem_without.mp hin
      rw [if_neg (Ne.symm hne)]
      exact h.shown r' hold

theorem insert (h : Finds c records) {key : String} (hkey : ∀ r ∈ records, r.key ≠ key) (value : V)
    (stamp : Option Nat) :
    Finds ((c.create key value stamp).2.place c.entries.size)
      ({ serial := c.entries.size, key, value, stamp } :: records) where
  wellKeyed := (h.wellKeyed.create key value stamp).place c.entries.size
  keyed := by
    rw [List.map_cons, List.nodup_cons]
    refine ⟨fun hmem => ?_, h.keyed⟩
    obtain ⟨r, hr, heq⟩ := List.mem_map.mp hmem
    exact hkey r hr heq
  occupant_iff other s := by
    rw [c.occupant?_place_create key value stamp, List.exists_mem_cons_iff]
    split
    · rename_i heq
      subst heq
      rw [Option.some.injEq]
      constructor
      · rintro rfl
        exact Or.inl ⟨rfl, rfl⟩
      · rintro (⟨_, hs⟩ | ⟨r, hr, hsame, _⟩)
        · exact hs
        · exact absurd hsame (hkey r hr)
    · rename_i hne
      rw [h.occupant_iff]
      exact ⟨Or.inr, fun hor => hor.resolve_left fun hnew => hne hnew.1⟩
  shown r hr := by
    unfold Contents.Shows
    rw [Contents.shown?_place]
    unfold Contents.shown?
    rw [Contents.entry?_create]
    rcases List.mem_cons.mp hr with rfl | hold
    · rw [if_pos rfl]
      rfl
    · rw [if_neg (Nat.ne_of_lt (h.made hold))]
      exact h.shown r hold

end Finds

namespace Lists

theorem serials (h : Lists c recency records) : (records.map (·.serial)).Nodup := by
  obtain ⟨order, hkeeps⟩ := h.chained
  rw [← h.listed]
  exact hkeeps.nodup_toList

theorem mem_without (h : Lists c recency records) {r r' : Record V} (hr : r ∈ records) :
    r' ∈ without records r.serial ↔ r' ∈ records ∧ r'.key ≠ r.key := by
  rw [Reference.mem_without]
  exact and_congr_right fun hr' => not_congr (Contents.serial_eq_iff h.keyed h.named hr hr')

theorem mem_iff (h : Lists c recency records) {s : Serial} :
    s ∈ records.map (·.serial) ↔ (c.handle? s).isSome := by
  obtain ⟨order, hkeeps⟩ := h.chained
  rw [← h.listed, hkeeps.isSome_handle?_iff]

theorem keys (h : Lists c recency records) : recency.keys c = records.map (·.key) := by
  unfold Recency.keys
  rw [h.listed, List.filterMap_map, ← List.filterMap_eq_map]
  exact List.filterMap_congr fun r hr => h.named r hr

/-- Slots do not matter. -/
theorem of_entries_eq (h : Lists c recency records) (hentries : ∀ s, c'.entry? s = c.entry? s) :
    Lists c' recency records where
  chained := h.chained.imp fun _ hkeeps => hkeeps.of_entries_eq hentries
  listed := h.listed
  keyed := h.keyed
  named r hr := by
    unfold Contents.keyOf
    rw [hentries]
    exact h.named r hr

/-- Nor does what callers write. -/
theorem written {c : Cache V} (h : Lists c.contents recency records) (key : String) (value : V)
    (ttl : Span) : Lists (c.written key value ttl) recency records where
  chained := h.chained.imp fun _ hkeeps => hkeeps.of_nodesKept (c.written_nodesKept key value ttl)
  listed := h.listed
  keyed := h.keyed
  named r hr := Cache.keyOf_written (h.named r hr) key value ttl

/-- Nor do values and stamps. -/
theorem map (h : Lists c recency records) {f : Record V → Record V}
    (hf : ∀ r, (f r).serial = r.serial ∧ (f r).key = r.key) :
    Lists c recency (records.map f) where
  chained := h.chained
  listed := by
    have hserial : (fun r : Record V => r.serial) ∘ f = (·.serial) := funext fun r => (hf r).1
    rw [List.map_map, hserial, h.listed]
  keyed := by
    have hkey : (fun r : Record V => r.key) ∘ f = (·.key) := funext fun r => (hf r).2
    rw [List.map_map, hkey]
    exact h.keyed
  named r hr := by
    obtain ⟨r', hr', rfl⟩ := List.mem_map.mp hr
    rw [(hf r').1, (hf r').2]
    exact h.named r' hr'

/-- The entry of a record can be noted. -/
theorem handle (h : Lists c recency records) {r : Record V} (hr : r ∈ records) :
    ∃ place, c.handle? r.serial = some place ∧ recency.Names place r.serial := by
  obtain ⟨order, hkeeps⟩ := h.chained
  have hlisted : r.serial ∈ recency.toList := by
    rw [h.listed]
    exact List.mem_map_of_mem hr
  obtain ⟨i, hmem⟩ := hkeeps.mem_toList.mp hlisted
  obtain ⟨node, hnode, hplace⟩ := hkeeps.handle?_of_mem hmem
  obtain ⟨_, hother, hentry⟩ := hkeeps.node_of_mem hmem
  rw [hnode] at hother
  cases hother
  have hindex := Recency.toNat_index (Nat.lt_of_succ_lt (hkeeps.index_lt hmem))
  refine ⟨_, hplace, node, ?_, Or.inl ⟨rfl, hentry⟩⟩
  dsimp only
  rw [hindex]
  exact hnode

theorem hitAll (h : Lists c recency records) {places : List Handle} {serials : List Serial}
    (hnames : List.Forall₂ recency.Names places serials) :
    Lists c (recency.hitAll places) (serials.foldl touch records) := by
  obtain ⟨order, hkeeps⟩ := h.chained
  obtain ⟨order', hkeeps', _⟩ := hkeeps.hitAll places
  have hperm := Reference.touchAll_perm h.serials serials
  refine ⟨⟨order', hkeeps'⟩, ?_, (hperm.map (·.key)).nodup_iff.mpr h.keyed,
    fun r hr => h.named r (hperm.mem_iff.mp hr)⟩
  rw [hkeeps.hitAll_toList hnames, h.listed,
    Reference.touchAll_serials h.serials recency.capacity]

/-- An entry is unlinked, if it was linked. -/
theorem remove (h : Lists c recency records) (hkeyed : c'.WellKeyed)
    (hentries : ∀ s, c'.entry? s = c.entry? s) (s : Serial) :
    (recency.remove c' s).1 = (if s ∈ records.map (·.serial) then some s else none) ∧
      Lists (recency.remove c' s).2.2 (recency.remove c' s).2.1 (without records s) := by
  obtain ⟨order, hkeeps⟩ := h.chained
  obtain ⟨⟨order', hrest, _⟩, hlist, hfst⟩ := (hkeeps.of_entries_eq hentries).remove s
  have hvacated := Recency.remove_vacated hkeyed recency s
  refine ⟨hfst.trans (by rw [h.listed]), ⟨order', hrest⟩, ?_,
    h.keyed.sublist (List.filter_sublist.map _), fun r hr => ?_⟩
  · rw [hlist, h.listed, Reference.serials_without h.serials]
  · rw [hvacated.keyOf_eq]
    unfold Contents.keyOf
    rw [hentries]
    exact h.named r (Reference.mem_without.mp hr).1

theorem clear (h : Lists c recency records) :
    Lists (recency.clear c).2.clearSlots (recency.clear c).1 [] := by
  obtain ⟨order, hkeeps⟩ := h.chained
  have hcleared := hkeeps.clear.of_entries_eq fun s => Contents.entry?_clearSlots _ s
  exact ⟨⟨[], hcleared⟩, hcleared.toList_eq, List.nodup_nil, nofun⟩

end Lists

namespace Holds

theorem lists (h : Holds c recency records) : Lists c recency records :=
  ⟨h.chained, h.listed, h.keyed, fun _ => h.named⟩

theorem of_lists (hfinds : Finds c records) (hlists : Lists c recency records) :
    Holds c recency records :=
  ⟨hfinds, hlists.chained, hlists.listed⟩

theorem of_empty (hkeyed : c.WellKeyed) (hvacant : ∀ key, c.occupant? key = none)
    (hkeeps : recency.Keeps c []) : Holds c recency [] :=
  ⟨.of_empty hkeyed hvacant, ⟨[], hkeeps⟩, hkeeps.toList_eq⟩

theorem handle (h : Holds c recency records) {r : Record V} (hr : r ∈ records) :
    ∃ place, c.handle? r.serial = some place ∧ recency.Names place r.serial :=
  h.lists.handle hr

/-! ## Storing -/

theorem overwrite (h : Holds c recency records) {r : Record V} (hr : r ∈ records) (value : V)
    (stamp : Option Nat)
    (hfits : (recency.add (c.modify r.serial (·.overwrite value stamp)) r.serial).2.1.Fitting) :
    (recency.add (c.modify r.serial (·.overwrite value stamp)) r.serial).1 = none ∧
      Holds (recency.add (c.modify r.serial (·.overwrite value stamp)) r.serial).2.2
        (recency.add (c.modify r.serial (·.overwrite value stamp)) r.serial).2.1
        ({ r with value, stamp } :: without records r.serial) := by
  obtain ⟨order, hkeeps⟩ := h.chained
  have hkept := hkeeps.of_nodesKept (c.nodesKept_overwrite r.serial value stamp)
  have hkeyed := h.wellKeyed.modify r.serial (·.overwrite value stamp)
    fun e => e.key_overwrite value stamp
  have hvacated := (Recency.add_vacated hkeyed recency r.serial).1
  obtain ⟨hkeeps', hlist, hvictim⟩ := hkept.add hkeyed r.serial hfits
  have hlisted : r.serial ∈ recency.toList := by
    rw [h.listed]
    exact List.mem_map_of_mem hr
  have hnone : Recency.victim? recency.capacity recency.toList r.serial
      (c.modify r.serial (·.overwrite value stamp)).occupies = none := by
    unfold Recency.victim?
    rw [if_neg fun hcond => hcond.1 hlisted]
  rw [hnone] at hvictim
  rw [hvictim] at hvacated
  refine ⟨hvictim, ?_, hkeeps', ?_⟩
  · exact (h.toFinds.overwrite hr value stamp).of_vacated hvacated (List.Sublist.refl _) (by simp)
  · rw [hlist]
    unfold Recency.refreshed
    rw [if_pos hlisted, h.listed, List.map_cons, Reference.serials_without h.serials]

/-- What holds once a new entry is linked, apart from an entry that gave way to it. -/
theorem of_inserted (h : Holds c recency records) {key : String} (hkey : ∀ r ∈ records, r.key ≠ key)
    (value : V) (stamp : Option Nat) {c' : Contents V} {recency' : Recency} {gone : Option Serial}
    {kept : List (Record V)}
    (hvacated : Contents.Vacated ((c.create key value stamp).2.place c.entries.size) c' gone)
    (hkeeps : ∃ order, recency'.Keeps c' order)
    (hlist : recency'.toList = c.entries.size :: kept.map (·.serial)) (hsub : kept.Sublist records)
    (hgone : ∀ r ∈ records, r ∈ kept ↔ gone ≠ some r.serial) (hnew : gone ≠ some c.entries.size) :
    Holds c' recency' ({ serial := c.entries.size, key, value, stamp } :: kept) := by
  refine ⟨(h.toFinds.insert hkey value stamp).of_vacated hvacated (hsub.cons_cons _) ?_, hkeeps, hlist⟩
  intro r hr
  rcases List.mem_cons.mp hr with rfl | hold
  · exact iff_of_true List.mem_cons_self hnew
  · rw [List.mem_cons, ← hgone r hold]
    refine or_iff_right ?_
    rintro rfl
    exact hkey _ hold rfl

/-- A new entry is linked in front; the last one of a full list gives way. -/
theorem insert (h : Holds c recency records) {key : String} (hkey : ∀ r ∈ records, r.key ≠ key)
    (value : V) (stamp : Option Nat) {c' : Contents V}
    (hc' : (c.create key value stamp).2.place c.entries.size = c')
    (hfits : (recency.add c' c.entries.size).2.1.Fitting) :
    (recency.add c' c.entries.size).1 =
        (if 0 < recency.capacity ∧ recency.capacity ≤ records.length then
          records.getLast?.map (·.serial) else none) ∧
      Holds (recency.add c' c.entries.size).2.2 (recency.add c' c.entries.size).2.1
        ({ serial := c.entries.size, key, value, stamp } ::
          if 0 < recency.capacity ∧ recency.capacity ≤ records.length then records.dropLast
          else records) := by
  subst hc'
  obtain ⟨order, hkeeps⟩ := h.chained
  have hslots := c.occupant?_place_create key value stamp
  have hkept := (hkeeps.of_nodesKept (c.nodesKept_create key value stamp)).of_entries_eq
    fun t => Contents.entry?_place (c.create key value stamp).2 c.entries.size t
  have hkeyed := (h.wellKeyed.create key value stamp).place c.entries.size
  have hocc := hkeyed.occupies_of_occupant? ((hslots key).trans (if_pos rfl))
  have hout : c.entries.size ∉ records.map (·.serial) := by
    intro hmem
    obtain ⟨r, hr, heq⟩ := List.mem_map.mp hmem
    exact Nat.lt_irrefl _ (heq ▸ h.made hr)
  obtain ⟨hkeeps', hlist, hvictim⟩ := hkept.add hkeyed c.entries.size hfits
  have hvacated := (Recency.add_vacated hkeyed recency c.entries.size).1
  unfold Recency.refreshed at hlist
  unfold Recency.victim? at hvictim
  rw [h.listed, if_neg hout, hocc, Bool.not_true, if_neg Bool.false_ne_true, List.length_map]
    at hlist
  rw [h.listed, hocc, List.length_map] at hvictim
  by_cases hfull : 0 < recency.capacity ∧ recency.capacity ≤ records.length
  · rw [if_pos hfull] at hlist ⊢
    rw [if_pos ⟨hout, rfl, hfull⟩] at hvictim
    rw [if_pos hfull]
    obtain ⟨front, last, rfl⟩ : ∃ front last, records = front ++ [last] := by
      refine (List.eq_nil_or_concat' records).resolve_left ?_
      rintro rfl
      simp at hfull
      omega
    have hlast : ((c.create key value stamp).2.place c.entries.size).occupies last.serial = true := by
      have hslot := hslots last.key
      rw [if_neg (Ne.symm (hkey last (by simp))), h.occupant (by simp)] at hslot
      exact hkeyed.occupies_of_occupant? hslot
    have hnodup := h.serials
    rw [List.map_append, List.map_singleton] at hlist hvictim hnodup
    rw [List.dropLast_concat] at hlist ⊢
    rw [List.getLast?_concat, Option.filter_some, if_pos hlast] at hvictim
    rw [hvictim] at hvacated
    rw [List.getLast?_concat]
    refine ⟨hvictim, h.of_inserted hkey value stamp hvacated hkeeps' hlist ?_ ?_ ?_⟩
    · exact List.sublist_append_left _ _
    · intro r hr
      rw [Ne, Option.some.injEq]
      constructor
      · rintro hin heq
        exact (List.nodup_append.mp hnodup).2.2 _ (List.mem_map_of_mem hin) _ (by simp) heq.symm
      · intro hne
        rcases List.mem_append.mp hr with hin | hin
        · exact hin
        · rw [List.mem_singleton.mp hin] at hne
          exact absurd rfl hne
    · intro heq
      have hlt := h.made (r := last) (by simp)
      rw [Option.some.inj heq] at hlt
      exact Nat.lt_irrefl _ hlt
  · rw [if_neg hfull] at hlist ⊢
    rw [if_neg fun hcond => hfull hcond.2.2] at hvictim
    rw [hvictim] at hvacated
    rw [if_neg hfull]
    refine ⟨hvictim, h.of_inserted hkey value stamp hvacated hkeeps' hlist ?_ ?_ ?_⟩
    · exact List.Sublist.refl _
    · simp
    · simp

end Holds

end TimedCache
