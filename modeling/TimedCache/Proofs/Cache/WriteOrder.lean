import TimedCache.Proofs.Cache.Outline

/-!
The order of writes. Operations for one key are queued in the order in which its entries were made,
and the deletion of an entry precedes what concerns its successor. So two entries of one key are
both listed only if the deletion of the older one was refused: the entry strays.
-/

namespace TimedCache

namespace Outline

structure Ordered (o : Outline) (strays : Serial → Prop) : Prop where
  keyed : ∀ key s, o.slot key = some s → o.keyOf s = some key
  nodup : o.listed.Nodup
  made : ∀ s ∈ o.listed, o.keyOf s ≠ none
  asked : ∀ op ∈ o.ops, ∀ s, op.upserted? = some s → o.keyOf s ≠ none
  unwiped : .clear ∉ o.ops
  buried : ∀ s, .delete s ∈ o.ops → o.keyOf s ≠ none ∧ ∀ key, o.slot key ≠ some s
  newest : ∀ key s t, o.slot key = some s → o.keyOf t = some key → t ≤ s
  sorted : o.ops.Pairwise fun a b => ∀ s t, a.upserted? = some s → b.upserted? = some t →
    o.keyOf s = o.keyOf t → s ≤ t
  older : ∀ s ∈ o.listed, ∀ op ∈ o.ops, ∀ t, op.upserted? = some t → o.keyOf s = o.keyOf t → s ≤ t
  doomed : ∀ s ∈ o.listed, (∃ key, o.slot key = some s) ∨ .delete s ∈ o.ops ∨ strays s
  pending : ∀ before op after t, o.ops = before ++ op :: after → op.upserted? = some t →
    ∀ s ∈ o.listed, s ≠ t → o.keyOf s = o.keyOf t → .delete s ∈ before ∨ strays s
  single : ∀ s ∈ o.listed, ∀ t ∈ o.listed, s < t → o.keyOf s = o.keyOf t → strays s
  lost : ∀ s, strays s → o.keyOf s ≠ none ∧ ∀ key, o.slot key ≠ some s

namespace Ordered

variable {o : Outline} {strays : Serial → Prop}

theorem occupies_iff (h : o.Ordered strays) {s : Serial} :
    o.occupies s = true ↔ ∃ key, o.slot key = some s := by
  unfold occupies
  constructor
  · intro hocc
    split at hocc
    · exact ⟨_, beq_iff_eq.mp hocc⟩
    · cases hocc
  · rintro ⟨key, hs⟩
    rw [h.keyed key s hs]
    exact beq_iff_eq.mpr hs

/-! ## Callers -/

/-- A new entry disturbs nothing while it has no slot. -/
theorem grow (h : o.Ordered strays) {key : String} {s : Serial} (hvacant : o.slot key = none)
    (hnew : ∀ t, o.keyOf t ≠ none → t < s) :
    ({ o with keyOf := Function.update o.keyOf s (some key) } : Outline).Ordered strays := by
  have hsame (t : Serial) (ht : o.keyOf t ≠ none) :
      Function.update o.keyOf s (some key) t = o.keyOf t :=
    Function.update_of_ne (Nat.ne_of_lt (hnew t ht)) _ _
  have hmade (t : Serial) (ht : o.keyOf t ≠ none) :
      Function.update o.keyOf s (some key) t ≠ none := by
    rw [hsame t ht]
    exact ht
  have hkeyed (other : String) (t : Serial) (ht : o.slot other = some t) : o.keyOf t ≠ none := by
    rw [h.keyed other t ht]
    simp
  have hback {t u : Serial} (ht : o.keyOf t ≠ none) (hu : o.keyOf u ≠ none)
      (hkey : Function.update o.keyOf s (some key) t = Function.update o.keyOf s (some key) u) :
      o.keyOf t = o.keyOf u := by
    rwa [hsame t ht, hsame u hu] at hkey
  constructor
  · intro other t ht
    exact (hsame t (hkeyed other t ht)).trans (h.keyed other t ht)
  · exact h.nodup
  · exact fun t ht => hmade t (h.made t ht)
  · exact fun op hop t ht => hmade t (h.asked op hop t ht)
  · exact h.unwiped
  · exact fun t ht => ⟨hmade t (h.buried t ht).1, (h.buried t ht).2⟩
  · intro other t u ht hu
    change Function.update o.keyOf s (some key) u = some other at hu
    rcases eq_or_ne u s with rfl | hne
    · rw [Function.update_self, Option.some.injEq] at hu
      change o.slot other = some t at ht
      rw [← hu, hvacant] at ht
      cases ht
    · rw [Function.update_of_ne hne] at hu
      exact h.newest other t u ht hu
  · apply h.sorted.imp_of_mem
    intro a b ha hb hab t u ht hu hkey
    exact hab t u ht hu (hback (h.asked a ha t ht) (h.asked b hb u hu) hkey)
  · intro t ht op hop u hu hkey
    exact h.older t ht op hop u hu (hback (h.made t ht) (h.asked op hop u hu) hkey)
  · exact h.doomed
  · intro before op after u hops hu t ht hne hkey
    have hop : op ∈ o.ops := by
      rw [hops]
      simp
    have hkey' := hback (h.made t ht) (h.asked op hop u hu) hkey
    exact h.pending before op after u hops hu t ht hne hkey'
  · intro t ht u hu hlt hkey
    exact h.single t ht u hu hlt (hback (h.made t ht) (h.made u hu) hkey)
  · exact fun t ht => ⟨hmade t (h.lost t ht).1, (h.lost t ht).2⟩

/-- A vacant slot takes an entry that is newer than any other. -/
theorem fill (h : o.Ordered strays) {key : String} {s : Serial} (hvacant : o.slot key = none)
    (hkey : o.keyOf s = some key) (hnewest : ∀ t, o.keyOf t ≠ none → t ≤ s)
    (hfresh : .delete s ∉ o.ops) (hstray : ¬ strays s) :
    ({ o with slot := Function.update o.slot key (some s) } : Outline).Ordered strays where
  keyed other t ht := by
    change Function.update o.slot key (some s) other = some t at ht
    rcases eq_or_ne other key with rfl | hne
    · rw [Function.update_self] at ht
      cases ht
      exact hkey
    · rw [Function.update_of_ne hne] at ht
      exact h.keyed other t ht
  nodup := h.nodup
  made := h.made
  asked := h.asked
  unwiped := h.unwiped
  buried t ht := by
    refine ⟨(h.buried t ht).1, ?_⟩
    intro other hother
    change Function.update o.slot key (some s) other = some t at hother
    rcases eq_or_ne other key with rfl | hne
    · rw [Function.update_self] at hother
      cases hother
      exact hfresh ht
    · rw [Function.update_of_ne hne] at hother
      exact (h.buried t ht).2 other hother
  newest other t u ht hu := by
    change Function.update o.slot key (some s) other = some t at ht
    rcases eq_or_ne other key with rfl | hne
    · rw [Function.update_self] at ht
      cases ht
      apply hnewest
      rw [hu]
      simp
    · rw [Function.update_of_ne hne] at ht
      exact h.newest other t u ht hu
  sorted := h.sorted
  older := h.older
  doomed t ht := by
    rcases h.doomed t ht with ⟨other, hother⟩ | hrest
    · left
      refine ⟨other, ?_⟩
      rw [← hother]
      apply Function.update_of_ne
      rintro rfl
      rw [hvacant] at hother
      cases hother
    · exact Or.inr hrest
  pending := h.pending
  single := h.single
  lost t ht := by
    refine ⟨(h.lost t ht).1, ?_⟩
    intro other hother
    change Function.update o.slot key (some s) other = some t at hother
    rcases eq_or_ne other key with rfl | hne
    · rw [Function.update_self] at hother
      cases hother
      exact hstray ht
    · rw [Function.update_of_ne hne] at hother
      exact (h.lost t ht).2 other hother

/-- A writer's operation is queued for the entry in the slot. -/
theorem ask (h : o.Ordered strays) {key : String} {s : Serial} (hs : o.slot key = some s)
    {op : WriteOp} (hop : op.upserted? = some s) :
    ({ o with ops := o.ops ++ [op] } : Outline).Ordered strays := by
  have hkey := h.keyed key s hs
  have hmem {op' : WriteOp} (h' : op' ∈ o.ops ++ [op]) : op' ∈ o.ops ∨ op' = op := by
    simpa using h'
  have hdelete (t : Serial) (ht : .delete t ∈ o.ops ++ [op]) : .delete t ∈ o.ops := by
    rcases hmem ht with hin | heq
    · exact hin
    · rw [← heq] at hop
      cases hop
  constructor
  · exact h.keyed
  · exact h.nodup
  · exact h.made
  · intro op' hop' t ht
    rcases hmem hop' with hin | rfl
    · exact h.asked op' hin t ht
    · rw [hop] at ht
      cases ht
      change o.keyOf s ≠ none
      rw [hkey]
      simp
  · intro hclear
    rcases hmem hclear with hin | heq
    · exact h.unwiped hin
    · rw [← heq] at hop
      cases hop
  · exact fun t ht => h.buried t (hdelete t ht)
  · exact h.newest
  · refine List.pairwise_append.mpr ⟨h.sorted, List.pairwise_singleton _ _, ?_⟩
    intro a ha b hb t u ht hu hsame
    rw [List.mem_singleton.mp hb, hop] at hu
    cases hu
    change o.keyOf t = o.keyOf s at hsame
    rw [hkey] at hsame
    exact h.newest key s t hs hsame
  · intro t ht op' hop' u hu hsame
    rcases hmem hop' with hin | rfl
    · exact h.older t ht op' hin u hu hsame
    · rw [hop] at hu
      cases hu
      change o.keyOf t = o.keyOf s at hsame
      rw [hkey] at hsame
      exact h.newest key s t hs hsame
  · intro t ht
    rcases h.doomed t ht with hslot | hgone | hstray
    · exact Or.inl hslot
    · exact Or.inr (Or.inl (List.mem_append_left _ hgone))
    · exact Or.inr (Or.inr hstray)
  · intro before op' after u hops hu t ht hne hsame
    change o.ops ++ [op] = _ at hops
    rcases List.eq_nil_or_concat' after with rfl | ⟨middle, last, rfl⟩
    · obtain ⟨hbefore, heq⟩ := List.append_inj' hops rfl
      cases heq
      rw [hop] at hu
      cases hu
      change o.keyOf t = o.keyOf s at hsame
      rw [hkey] at hsame
      rcases h.doomed t ht with ⟨other, hother⟩ | hgone | hstray
      · rw [h.keyed other t hother] at hsame
        cases hsame
        rw [hs] at hother
        cases hother
        exact absurd rfl hne
      · rw [← hbefore]
        exact Or.inl hgone
      · exact Or.inr hstray
    · have hfront : o.ops = before ++ op' :: middle := by
        have happend : o.ops ++ [op] = (before ++ op' :: middle) ++ [last] := by
          rw [hops]
          simp
        exact (List.append_inj' happend rfl).1
      exact h.pending before op' middle u hfront hu t ht hne hsame
  · exact h.single
  · exact h.lost

theorem enter (h : o.Ordered strays) {key : String} {s : Serial} (hvacant : o.slot key = none)
    (hnew : ∀ t, o.keyOf t ≠ none → t < s) :
    ({ o with
      slot := Function.update o.slot key (some s)
      keyOf := Function.update o.keyOf s (some key)
      ops := o.ops ++ [.set s] } : Outline).Ordered strays := by
  have hgrown := h.grow hvacant hnew
  have hfilled := hgrown.fill hvacant (Function.update_self ..) (s := s) ?_ ?_ ?_
  · exact hfilled.ask (Function.update_self ..) rfl
  · intro t ht
    rcases eq_or_ne t s with rfl | hne
    · exact Nat.le_refl _
    · apply Nat.le_of_lt
      apply hnew
      rwa [← Function.update_of_ne hne (some key) o.keyOf]
  · intro hdelete
    exact Nat.lt_irrefl _ (hnew s (h.buried s hdelete).1)
  · intro hstray
    exact Nat.lt_irrefl _ (hnew s (h.lost s hstray).1)

/-- A slot is emptied by a deletion that was refused. -/
theorem stray (h : o.Ordered strays) {key : String} {s : Serial} (hs : o.slot key = some s) :
    ({ o with slot := Function.update o.slot key none } : Outline).Ordered
      fun t => strays t ∨ some s = some t := by
  have hslot {other : String} {t : Serial} (ht : Function.update o.slot key none other = some t) :
      o.slot other = some t := by
    rcases eq_or_ne other key with rfl | hne
    · rw [Function.update_self] at ht
      cases ht
    · rwa [Function.update_of_ne hne] at ht
  refine ⟨fun other t ht => h.keyed other t (hslot ht), h.nodup, h.made, h.asked, h.unwiped, ?_,
    fun other t u ht => h.newest other t u (hslot ht), h.sorted, h.older, ?_, ?_, ?_, ?_⟩
  · exact fun t ht => ⟨(h.buried t ht).1, fun other hother => (h.buried t ht).2 other (hslot hother)⟩
  · intro t ht
    rcases h.doomed t ht with ⟨other, hother⟩ | hgone | hstray
    · rcases eq_or_ne other key with rfl | hne
      · rw [hs] at hother
        exact Or.inr (Or.inr (Or.inr hother))
      · exact Or.inl ⟨other, (Function.update_of_ne hne _ _).trans hother⟩
    · exact Or.inr (Or.inl hgone)
    · exact Or.inr (Or.inr (Or.inl hstray))
  · intro before op after u hops hu t ht hne hkey
    exact (h.pending before op after u hops hu t ht hne hkey).imp_right Or.inl
  · exact fun t ht u hu hlt hkey => Or.inl (h.single t ht u hu hlt hkey)
  · rintro t (ht | heq)
    · exact ⟨(h.lost t ht).1, fun other hother => (h.lost t ht).2 other (hslot hother)⟩
    · cases heq
      refine ⟨?_, ?_⟩
      · change o.keyOf s ≠ none
        rw [h.keyed key s hs]
        simp
      · intro other hother
        have hkeys := (h.keyed other s (hslot hother)).symm.trans (h.keyed key s hs)
        cases hkeys
        change Function.update o.slot key none key = some s at hother
        rw [Function.update_self] at hother
        cases hother

/-- A slot is emptied, and the deletion of its entry is queued. -/
theorem leave (h : o.Ordered strays) {key : String} {s : Serial} (hs : o.slot key = some s) :
    ({ o with
      slot := Function.update o.slot key none
      ops := o.ops ++ [.delete s] } : Outline).Ordered strays := by
  have hemptied := h.stray hs
  have hmem {op : WriteOp} (h' : op ∈ o.ops ++ [.delete s]) : op ∈ o.ops ∨ op = .delete s := by
    simpa using h'
  have hkeep {op : WriteOp} {t : Serial} (h' : op ∈ o.ops ++ [.delete s])
      (hop : op.upserted? = some t) : op ∈ o.ops := by
    rcases hmem h' with hin | rfl
    · exact hin
    · cases hop
  refine ⟨hemptied.keyed, h.nodup, h.made, fun op hop t ht => h.asked op (hkeep hop ht) t ht, ?_,
    ?_, hemptied.newest, ?_, fun t ht op hop u hu => h.older t ht op (hkeep hop hu) u hu, ?_, ?_,
    h.single, fun t ht => hemptied.lost t (Or.inl ht)⟩
  · intro hclear
    rcases hmem hclear with hin | heq
    · exact h.unwiped hin
    · cases heq
  · intro t ht
    rcases hmem ht with hin | heq
    · exact hemptied.buried t hin
    · cases heq
      exact hemptied.lost s (Or.inr rfl)
  · refine List.pairwise_append.mpr ⟨h.sorted, List.pairwise_singleton _ _, ?_⟩
    intro a _ b hb t u _ hu
    rw [List.mem_singleton.mp hb] at hu
    cases hu
  · intro t ht
    rcases hemptied.doomed t ht with hslot | hgone | hstray | heq
    · exact Or.inl hslot
    · exact Or.inr (Or.inl (List.mem_append_left _ hgone))
    · exact Or.inr (Or.inr hstray)
    · cases heq
      exact Or.inr (Or.inl (List.mem_append_right _ List.mem_cons_self))
  · intro before op after u hops hu t ht hne hkey
    change o.ops ++ [.delete s] = _ at hops
    rcases List.eq_nil_or_concat' after with rfl | ⟨middle, last, rfl⟩
    · obtain ⟨_, heq⟩ := List.append_inj' hops rfl
      cases heq
      cases hu
    · have happend : o.ops ++ [.delete s] = (before ++ op :: middle) ++ [last] := by
        rw [hops]
        simp
      have hfront : o.ops = before ++ op :: middle := (List.append_inj' happend rfl).1
      exact h.pending before op middle u hfront hu t ht hne hkey

/-! ## The worker -/

theorem slot_of_without {gone : Option Serial} {key : String} {s : Serial}
    (h : o.without gone key = some s) : o.slot key = some s ∧ gone ≠ some s := by
  unfold without at h
  split at h
  · cases h
  · rename_i hne
    refine ⟨h, ?_⟩
    rintro rfl
    exact hne h

theorem without_of_ne {gone : Option Serial} {key : String} {s : Serial}
    (h : o.slot key = some s) (hne : gone ≠ some s) : o.without gone key = some s := by
  unfold without
  rw [if_neg, h]
  rw [h]
  exact hne.symm

/-- An entry leaves the list and its slot. -/
theorem fall (h : o.Ordered strays) (s : Serial) :
    ({ o with slot := o.without (some s), listed := o.listed.erase s } : Outline).Ordered
      strays where
  keyed key t ht := h.keyed key t (slot_of_without ht).1
  nodup := h.nodup.erase s
  made t ht := h.made t (List.mem_of_mem_erase ht)
  asked := h.asked
  unwiped := h.unwiped
  buried t ht :=
    ⟨(h.buried t ht).1, fun key hkey => (h.buried t ht).2 key (slot_of_without hkey).1⟩
  newest key t u ht := h.newest key t u (slot_of_without ht).1
  sorted := h.sorted
  older t ht := h.older t (List.mem_of_mem_erase ht)
  doomed t ht := by
    obtain ⟨hne, hin⟩ := (h.nodup.mem_erase_iff).mp ht
    rcases h.doomed t hin with ⟨key, hkey⟩ | hrest
    · left
      refine ⟨key, without_of_ne hkey ?_⟩
      rintro ⟨rfl⟩
      exact hne rfl
    · exact Or.inr hrest
  pending before op after u hops hu t ht :=
    h.pending before op after u hops hu t (List.mem_of_mem_erase ht)
  single t ht u hu := h.single t (List.mem_of_mem_erase ht) u (List.mem_of_mem_erase hu)
  lost t ht :=
    ⟨(h.lost t ht).1, fun key hkey => (h.lost t ht).2 key (slot_of_without hkey).1⟩

/-- The worker has taken an operation that asked for nothing. -/
theorem tail (h : o.Ordered strays) {op : WriteOp} {rest : List WriteOp} (hops : o.ops = op :: rest)
    (hdone : ∀ s, op = .delete s → s ∉ o.listed) :
    ({ o with ops := rest } : Outline).Ordered strays := by
  have hmem {op' : WriteOp} (h' : op' ∈ rest) : op' ∈ o.ops := by
    rw [hops]
    exact List.mem_cons_of_mem _ h'
  have hdelete {t : Serial} (ht : t ∈ o.listed) {l : List WriteOp} (hin : .delete t ∈ op :: l) :
      .delete t ∈ l := by
    rcases List.mem_cons.mp hin with heq | hin
    · exact absurd ht (hdone t heq.symm)
    · exact hin
  have hsorted := h.sorted
  rw [hops] at hsorted
  refine ⟨h.keyed, h.nodup, h.made, fun op' hop' => h.asked op' (hmem hop'),
    fun hclear => h.unwiped (hmem hclear), fun t ht => h.buried t (hmem ht), h.newest,
    (List.pairwise_cons.mp hsorted).2, fun t ht op' hop' => h.older t ht op' (hmem hop'), ?_, ?_,
    h.single, h.lost⟩
  · intro t ht
    rcases h.doomed t ht with hslot | hgone | hstray
    · exact Or.inl hslot
    · rw [hops] at hgone
      exact Or.inr (Or.inl (hdelete ht hgone))
    · exact Or.inr (Or.inr hstray)
  · intro before op' after u hrest hu t ht hne hkey
    change rest = _ at hrest
    rw [hrest] at hops
    exact (h.pending (op :: before) op' after u hops hu t ht hne hkey).imp_left (hdelete ht)

/-- The worker links the entry of an operation, or moves it to the front. -/
theorem link (h : o.Ordered strays) {op : WriteOp} {s : Serial} {rest : List WriteOp}
    (hops : o.ops = op :: rest) (hop : op.upserted? = some s) (capacity : Nat) :
    ({ o with
      slot := o.without (Recency.victim? capacity o.listed s o.occupies)
      listed := Recency.refreshed capacity o.listed s (o.occupies s)
      ops := rest } : Outline).Ordered strays := by
  have htail := h.tail hops (by
    rintro t rfl
    cases hop)
  have hsorted := h.sorted
  rw [hops] at hsorted
  have hfirst := (List.pairwise_cons.mp hsorted).1
  have hmem {t : Serial} (ht : t ∈ Recency.refreshed capacity o.listed s (o.occupies s)) :
      t ∈ o.listed ∨ (t = s ∧ ∃ key, o.slot key = some s) :=
    (Recency.mem_of_mem_refreshed ht).imp_right fun hs => ⟨hs.1, h.occupies_iff.mp hs.2⟩
  have hkeep {t : Serial} {key : String}
      (ht : t ∈ Recency.refreshed capacity o.listed s (o.occupies s))
      (hslot : o.slot key = some t) :
      o.without (Recency.victim? capacity o.listed s o.occupies) key = some t :=
    without_of_ne hslot fun heq => (Recency.victim_spec heq h.nodup).2.2.2 ht
  -- Of the entries of one key in the queue, the one that holds the slot comes last.
  have hlast {t : Serial} {op' : WriteOp} (hs : ∃ key, o.slot key = some s) (hin : op' ∈ rest)
      (ht : op'.upserted? = some t) (hkey : o.keyOf s = o.keyOf t) : t = s := by
    obtain ⟨key, hslot⟩ := hs
    apply Nat.le_antisymm
    · exact h.newest key s t hslot (hkey.symm.trans (h.keyed key s hslot))
    · exact hfirst op' hin s t hop ht hkey
  have hhead : op ∈ o.ops := by
    rw [hops]
    exact List.mem_cons_self
  refine ⟨fun key t ht => h.keyed key t (slot_of_without ht).1,
    Recency.nodup_refreshed h.nodup _ _ _, ?_, htail.asked, htail.unwiped, ?_,
    fun key t u ht => h.newest key t u (slot_of_without ht).1, htail.sorted, ?_, ?_, ?_, ?_,
    fun t ht => ⟨(h.lost t ht).1, fun key hkey => (h.lost t ht).2 key (slot_of_without hkey).1⟩⟩
  · intro t ht
    rcases hmem ht with hin | ⟨rfl, _⟩
    · exact h.made t hin
    · exact h.asked op hhead t hop
  · exact fun t ht => ⟨(htail.buried t ht).1,
      fun key hkey => (htail.buried t ht).2 key (slot_of_without hkey).1⟩
  · intro t ht op' hop' u hu hkey
    rcases hmem ht with hin | ⟨rfl, _⟩
    · exact htail.older t hin op' hop' u hu hkey
    · exact hfirst op' hop' t u hop hu hkey
  · intro t ht
    rcases hmem ht with hin | ⟨rfl, key, hslot⟩
    · rcases htail.doomed t hin with ⟨key, hslot⟩ | hgone
      · exact Or.inl ⟨key, hkeep ht hslot⟩
      · exact Or.inr hgone
    · exact Or.inl ⟨key, hkeep ht hslot⟩
  · intro before op' after u hrest hu t ht hne hkey
    rcases hmem ht with hin | ⟨rfl, hs⟩
    · exact htail.pending before op' after u hrest hu t hin hne hkey
    · have hin : op' ∈ rest := by
        change rest = _ at hrest
        rw [hrest]
        simp
      exact absurd (hlast hs hin hu hkey).symm hne
  · intro t ht u hu hlt hkey
    rcases hmem ht with htin | ⟨rfl, _⟩
    · rcases hmem hu with huin | ⟨rfl, _⟩
      · exact h.single t htin u huin hlt hkey
      · rcases h.pending [] op rest u hops hop t htin (Nat.ne_of_lt hlt) hkey with hin | hstray
        · cases hin
        · exact hstray
    · rcases hmem hu with huin | ⟨rfl, _⟩
      · have hle := h.older u huin op hhead t hop hkey.symm
        exact absurd hlt (Nat.not_lt.mpr hle)
      · exact absurd hlt (Nat.lt_irrefl _)

theorem step {capacity : Nat} {act : Act} {o' : Outline} (h : o.Ordered strays)
    (hstep : Step capacity o act o') :
    o'.Ordered fun s => strays s ∨ o.strayed? act = some s := by
  have hsame {o' : Outline} (h' : o'.Ordered strays) (hact : o.strayed? act = none) :
      o'.Ordered fun s => strays s ∨ o.strayed? act = some s := by
    rw [hact]
    simpa using h'
  cases hstep with
  | idle hact _ => exact hsame h hact
  | refuse hvacant hnew => exact hsame (h.grow hvacant hnew) rfl
  | enter hvacant hnew => exact hsame (h.enter hvacant hnew) rfl
  | renew hslot => exact hsame (h.ask hslot rfl) rfl
  | leave hslot => exact hsame (h.leave hslot) rfl
  | stray hslot =>
    have hstrayed : o.strayed? (.discard _ false) = some _ := hslot
    rw [hstrayed]
    exact h.stray hslot
  | link hops hop => exact hsame (h.link hops hop capacity) rfl
  | bury hops =>
    refine hsame ((h.fall _).tail hops ?_) rfl
    rintro t ⟨rfl⟩
    exact h.nodup.not_mem_erase
  | wipe hops =>
    apply absurd (h.unwiped)
    rw [hops]
    simp
  | skip hops =>
    refine hsame (h.tail hops ?_) rfl
    rintro t ⟨⟩
  | fall => exact hsame (h.fall _) rfl

end Ordered

end Outline

end TimedCache
