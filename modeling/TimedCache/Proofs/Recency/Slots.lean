import TimedCache.Proofs.Contents
import TimedCache.Recency

/-!
What the recency list does to the slots. Whatever state the arena is in, an operation of the list
takes at most one entry's slot away, and readers see the other entries as before.
-/

namespace TimedCache

namespace Contents

variable {V : Type}

/-- The slot of one entry at most was emptied, and nothing that readers see was changed besides. -/
structure Vacated (c c' : Contents V) (gone : Option Serial) : Prop where
  wellKeyed : c'.WellKeyed
  shown : ∀ s, c'.shown? s = c.shown? s
  size_entries : c'.entries.size = c.entries.size
  occupant_iff : ∀ key s, c'.occupant? key = some s ↔ c.occupant? key = some s ∧ gone ≠ some s

namespace Vacated

variable {c c' c'' : Contents V} {gone : Option Serial} {t : Serial}

theorem refl (h : c.WellKeyed) : Vacated c c none :=
  ⟨h, fun _ => rfl, rfl, by simp⟩

theorem trans (hfirst : Vacated c c' none) (hsecond : Vacated c' c'' gone) :
    Vacated c c'' gone where
  wellKeyed := hsecond.wellKeyed
  shown s := (hsecond.shown s).trans (hfirst.shown s)
  size_entries := hsecond.size_entries.trans hfirst.size_entries
  occupant_iff key s := by
    rw [hsecond.occupant_iff, hfirst.occupant_iff]
    simp

theorem trans_none (hfirst : Vacated c c' gone) (hsecond : Vacated c' c'' none) :
    Vacated c c'' gone where
  wellKeyed := hsecond.wellKeyed
  shown s := (hsecond.shown s).trans (hfirst.shown s)
  size_entries := hsecond.size_entries.trans hfirst.size_entries
  occupant_iff key s := by
    rw [hsecond.occupant_iff, hfirst.occupant_iff]
    simp

theorem trans_self (hfirst : Vacated c c' gone) (hsecond : Vacated c' c'' gone) :
    Vacated c c'' gone where
  wellKeyed := hsecond.wellKeyed
  shown s := (hsecond.shown s).trans (hfirst.shown s)
  size_entries := hsecond.size_entries.trans hfirst.size_entries
  occupant_iff key s := by
    rw [hsecond.occupant_iff, hfirst.occupant_iff, and_assoc, and_self]

theorem made (h : Vacated c c' gone) {s : Serial} {e : Entry V} (he : c.entry? s = some e) :
    ∃ e', c'.entry? s = some e' := by
  have hshown := h.shown s
  unfold shown? at hshown
  rw [he, Option.map_some, Option.map_eq_some_iff] at hshown
  obtain ⟨e', he', _⟩ := hshown
  exact ⟨e', he'⟩

theorem occupant_eq (h : Vacated c c' none) (key : String) :
    c'.occupant? key = c.occupant? key := by
  apply Option.ext
  intro s
  rw [h.occupant_iff]
  simp

theorem occupies_eq (h : Vacated c c' none) (s : Serial) : c'.occupies s = c.occupies s :=
  occupies_congr (h.shown s) h.occupant_eq

end Vacated

namespace WellKeyed

variable {c : Contents V}

theorem vacated_takeKey (h : c.WellKeyed) (key : String) :
    Vacated c (c.takeKey key).2 (c.occupant? key) where
  wellKeyed := h.takeKey key
  shown t := shown?_takeKey c key t
  size_entries := by rw [entries_takeKey]
  occupant_iff other t := by
    rw [occupant?_takeKey]
    split
    · rename_i heq
      subst heq
      simp
    · rename_i hne
      exact ⟨fun ht => ⟨ht, fun hkey => hne (h.key_unique hkey ht)⟩, And.left⟩

theorem vacated_vacate (h : c.WellKeyed) (s : Serial) : Vacated c (c.vacate s).2 (some s) where
  wellKeyed := h.vacate s
  shown t := shown?_vacate c s t
  size_entries := by rw [entries_vacate]
  occupant_iff key t := by
    rw [h.occupant?_vacate]
    split
    · rename_i hs
      simp [hs]
    · rename_i hs
      constructor
      · intro ht
        refine ⟨ht, ?_⟩
        rintro ⟨rfl⟩
        exact hs ht
      · exact fun ht => ht.1

/-- Nothing changes for an entry without a slot. -/
theorem vacated_of_not_occupies (h : c.WellKeyed) {s : Serial} (hs : c.occupies s = false) :
    Vacated c (c.vacate s).2 none where
  wellKeyed := h.vacate s
  shown t := shown?_vacate c s t
  size_entries := by rw [entries_vacate]
  occupant_iff key t := by
    rw [(h.vacated_vacate s).occupant_iff]
    constructor
    · exact fun ht => ⟨ht.1, by simp⟩
    · rintro ⟨ht, -⟩
      refine ⟨ht, ?_⟩
      rintro ⟨rfl⟩
      rw [h.occupies_of_occupant? ht] at hs
      cases hs

theorem vacated_link (h : c.WellKeyed) (s : Serial) (place : Handle) :
    Vacated c (c.link s place) none where
  wellKeyed := h.link s place
  shown t := shown?_link c s t place
  size_entries := by
    unfold Contents.link
    exact size_entries_modify c s _
  occupant_iff key t := by
    rw [occupant?_link]
    simp

theorem vacated_unlink (h : c.WellKeyed) (s : Serial) : Vacated c (c.unlink s) none where
  wellKeyed := h.unlink s
  shown t := shown?_unlink c s t
  size_entries := by
    unfold Contents.unlink
    exact size_entries_modify c s _
  occupant_iff key t := by
    rw [occupant?_unlink]
    simp

theorem vacated_unlinkAll (h : c.WellKeyed) (linked : List Serial) :
    Vacated c (linked.foldl Contents.unlink c) none := by
  induction linked generalizing c with
  | nil => exact .refl h
  | cons s rest ih =>
    have hfirst := h.vacated_unlink s
    exact hfirst.trans (ih hfirst.wellKeyed)

end WellKeyed

end Contents

namespace Recency

variable {V : Type} {c : Contents V}

theorem release_vacated (h : c.WellKeyed) (r : Recency) (i : Nat) :
    Contents.Vacated c (r.release c i).2.2 none := by
  unfold release
  dsimp only
  split
  · exact .refl h
  · rename_i s _
    exact h.vacated_unlink s

/-- What eviction hands out is the only entry to lose its slot, and it had one. -/
theorem evict_vacated (h : c.WellKeyed) (r : Recency) (fuel : Nat) :
    Contents.Vacated c (r.evict c fuel).2.2 (r.evict c fuel).1
      ∧ ∀ victim, (r.evict c fuel).1 = some victim → c.occupies victim = true := by
  have hidle : Contents.Vacated c c none
      ∧ ∀ victim, (none : Option Serial) = some victim → c.occupies victim = true :=
    ⟨.refl h, by simp⟩
  induction fuel generalizing r c with
  | zero => exact hidle
  | succ fuel ih =>
    unfold evict
    split
    · exact hidle
    · split
      · exact hidle
      · rename_i i _
        have hrelease := release_vacated h r i
        generalize r.release c i = result at hrelease ⊢
        obtain ⟨_ | s, r', c'⟩ := result
        · exact ⟨hrelease, by simp⟩
        · dsimp only at hrelease ⊢
          have hfst := Contents.vacate_fst c' s
          have hsome := hrelease.wellKeyed.vacated_vacate s
          have hnone (hs : c'.occupies s = false) :=
            hrelease.wellKeyed.vacated_of_not_occupies hs
          generalize c'.vacate s = outcome at hfst hsome hnone ⊢
          obtain ⟨_ | _, c''⟩ := outcome
          · have hkept := hrelease.trans (hnone hfst.symm)
            obtain ⟨hrest, hoccupied⟩ :=
              ih hkept.wellKeyed r' ⟨.refl hkept.wellKeyed, by simp⟩
            refine ⟨hkept.trans hrest, ?_⟩
            intro victim hvictim
            rw [← hkept.occupies_eq]
            exact hoccupied victim hvictim
          · refine ⟨hrelease.trans hsome, ?_⟩
            rintro victim ⟨rfl⟩
            rw [← hrelease.occupies_eq]
            exact hfst.symm

theorem makeRoom_vacated (h : c.WellKeyed) (r : Recency) :
    Contents.Vacated c (r.makeRoom c).2.2 (r.makeRoom c).1
      ∧ ∀ victim, (r.makeRoom c).1 = some victim → c.occupies victim = true := by
  unfold makeRoom
  split
  · exact evict_vacated h r r.size
  · exact ⟨.refl h, by simp⟩

theorem add_vacated (h : c.WellKeyed) (r : Recency) (s : Serial) :
    Contents.Vacated c (r.add c s).2.2 (r.add c s).1
      ∧ ∀ victim, (r.add c s).1 = some victim → c.occupies victim = true := by
  unfold add
  split
  · exact ⟨.refl h, by simp⟩
  · split
    · have hroom := makeRoom_vacated h r
      generalize r.makeRoom c = result at hroom ⊢
      obtain ⟨evicted, r', c'⟩ := result
      dsimp only at hroom ⊢
      exact ⟨hroom.1.trans_none (hroom.1.wellKeyed.vacated_link s _), hroom.2⟩
    · exact ⟨.refl h, by simp⟩

theorem remove_vacated (h : c.WellKeyed) (r : Recency) (s : Serial) :
    Contents.Vacated c (r.remove c s).2.2 (some s) := by
  have hvacate := h.vacated_vacate s
  unfold remove
  dsimp only
  split
  · exact hvacate.trans_none (release_vacated hvacate.wellKeyed r _)
  · exact hvacate

theorem clear_vacated (h : c.WellKeyed) (r : Recency) :
    Contents.Vacated c (r.clear c).2 none := by
  unfold clear
  exact h.vacated_unlinkAll _

end Recency

end TimedCache
