import Mathlib.Data.Finset.Card
import TimedCache.Proofs.Cache.WriteOrder

/-!
How long an entry keeps its slot in the outline, if callers leave its key alone. Once the worker has
linked it, what is in front of it was written later; so it is lost to a later write only when as
many other keys have been written as the list has room for. Until then it may be lost to an earlier
write, unless it was not listed or nothing was queued before it.
-/

namespace TimedCache

namespace Recency

variable {capacity : Nat} {listed front back : List Serial} {s t : Serial}

theorem unlisted_of_victim {victim : Serial} {occupies : Serial → Bool}
    (h : victim? capacity listed s occupies = some victim) : s ∉ listed := by
  unfold victim? at h
  split at h
  · rename_i hcond
    exact hcond.1
  · cases h

theorem exists_refreshed_eq_cons (capacity : Nat) (listed : List Serial) (s : Serial) :
    ∃ back, refreshed capacity listed s true = s :: back := by
  unfold refreshed
  split
  · exact ⟨_, rfl⟩
  · rw [if_neg (by simp)]
    split <;> exact ⟨_, rfl⟩

/-- Erasing another entry leaves no more in front of one. -/
theorem front_erase (h : listed = front ++ s :: back) (hne : t ≠ s) :
    ∃ front' back', listed.erase t = front' ++ s :: back' ∧ ∀ u ∈ front', u ∈ front := by
  subst h
  by_cases ht : t ∈ front
  · exact ⟨front.erase t, back, List.erase_append_left _ ht, fun _ => List.mem_of_mem_erase⟩
  · refine ⟨front, back.erase t, ?_, fun _ hu => hu⟩
    rw [List.erase_append_right _ ht, List.erase_cons_tail]
    simpa using hne.symm

/-- Refreshing another entry puts nothing else in front of one, which stays unless it is the last
of a full list. -/
theorem front_refreshed (h : listed = front ++ s :: back) (hne : t ≠ s) (occupies : Bool)
    (hroom : t ∉ listed → capacity ≤ listed.length → back ≠ []) :
    ∃ front' back', refreshed capacity listed t occupies = front' ++ s :: back' ∧
      ∀ u ∈ front', u ∈ front ∨ u = t := by
  have hadd {front' : List Serial} (hsub : ∀ u ∈ front', u ∈ front) :
      ∀ u ∈ t :: front', u ∈ front ∨ u = t := by
    intro u hu
    rcases List.mem_cons.mp hu with heq | hin
    · exact Or.inr heq
    · exact Or.inl (hsub u hin)
  unfold refreshed
  split
  · obtain ⟨front', back', heq, hsub⟩ := front_erase h hne
    exact ⟨t :: front', back', congrArg (t :: ·) heq, hadd hsub⟩
  · rename_i ht
    split
    · exact ⟨front, back, h, fun u hu => Or.inl hu⟩
    · split
      · rename_i hfull
        have hback := hroom ht hfull.2
        refine ⟨t :: front, back.dropLast, ?_, hadd fun _ hu => hu⟩
        rw [h, List.dropLast_append_of_ne_nil (by simp), List.dropLast_cons_of_ne_nil hback]
        rfl
      · exact ⟨t :: front, back, congrArg (t :: ·) h, hadd fun _ hu => hu⟩

end Recency

namespace Outline

section Turns

variable {capacity : Nat} {o o' : Outline} {act : Act} {key : String} {s : Serial}

theorem Step.keyOf_eq (hstep : Step capacity o act o') (h : o.keyOf s = some key) :
    o'.keyOf s = some key := by
  have hgrown {other : String} {t : Serial} (hnew : ∀ u, o.keyOf u ≠ none → u < t) :
      Function.update o.keyOf t (some other) s = some key := by
    rw [Function.update_of_ne]
    · exact h
    · apply Nat.ne_of_lt
      apply hnew
      rw [h]
      simp
  cases hstep with
  | refuse _ hnew => exact hgrown hnew
  | enter _ hnew => exact hgrown hnew
  | _ => exact h

/-- A slot is filled only when its key is stored. -/
theorem Step.slot_of (hstep : Step capacity o act o') (hact : act ≠ .store key)
    (h : o'.slot key = some s) : o.slot key = some s := by
  have hother {other : String} {gone : Option Serial} (hne : gone ≠ none → key ≠ other)
      (hs : Function.update o.slot other gone key = some s) : o.slot key = some s := by
    rcases eq_or_ne key other with rfl | hkey
    · rw [Function.update_self] at hs
      exact absurd rfl (hne (by simp [hs]))
    · rwa [Function.update_of_ne hkey] at hs
  cases hstep with
  | enter =>
    refine hother ?_ h
    rintro - rfl
    exact hact rfl
  | leave => exact hother (absurd rfl) h
  | stray => exact hother (absurd rfl) h
  | link => exact (Ordered.slot_of_without h).1
  | bury => exact (Ordered.slot_of_without h).1
  | wipe => cases h
  | fall => exact (Ordered.slot_of_without h).1
  | _ => exact h

/-- The worker takes what is queued, in order; what is added behind concerns a stored key. -/
theorem Step.queue (hstep : Step capacity o act o') :
    (∃ op, act = .work ∧ o.ops = op :: o'.ops) ∨
      ∃ more, o'.ops = o.ops ++ more ∧ (act = .work → o.ops = []) ∧
        ∀ op ∈ more, ∀ t, op.upserted? = some t → ∃ other, act = .store other ∧
          o'.slot other = some t := by
  cases hstep with
  | idle _ hwork => exact Or.inr ⟨[], by simp, hwork, by simp⟩
  | refuse => exact Or.inr ⟨[], by simp, nofun, by simp⟩
  | stray => exact Or.inr ⟨[], by simp, nofun, by simp⟩
  | fall => exact Or.inr ⟨[], by simp, nofun, by simp⟩
  | enter =>
    refine Or.inr ⟨_, rfl, nofun, ?_⟩
    intro op hop t ht
    rw [List.mem_singleton.mp hop] at ht
    cases ht
    exact ⟨_, rfl, Function.update_self ..⟩
  | renew hslot =>
    refine Or.inr ⟨_, rfl, nofun, ?_⟩
    intro op hop t ht
    rw [List.mem_singleton.mp hop] at ht
    cases ht
    exact ⟨_, rfl, hslot⟩
  | leave =>
    refine Or.inr ⟨_, rfl, nofun, ?_⟩
    intro op hop t ht
    rw [List.mem_singleton.mp hop] at ht
    cases ht
  | link hops => exact Or.inl ⟨_, rfl, hops⟩
  | bury hops => exact Or.inl ⟨_, rfl, hops⟩
  | wipe hops => exact Or.inl ⟨_, rfl, hops⟩
  | skip hops => exact Or.inl ⟨_, rfl, hops⟩

end Turns

/-- The next operation is the last one queued for an entry. -/
def Due (o : Outline) (s : Serial) : Prop :=
  ∃ op rest, o.ops = op :: rest ∧ op.upserted? = some s ∧ ∀ op' ∈ rest, op'.upserted? ≠ some s

/-- A turn that leaves a key and its entry alone. The keys that it stores are among some others, and
what it makes stray is on record. -/
structure Passes (o : Outline) (act : Act) (key : String) (s : Serial) (others : Finset String)
    (gone : List Serial) : Prop where
  stored : ∀ other, act = .store other → other ∈ others
  excluded : key ∉ others
  kept : ∀ taken, act ≠ .discard key taken
  alive : act ≠ .fall s
  recorded : ∀ t, o.strayed? act = some t → t ∈ gone

/-- An entry of one of the other keys; if it strays, it is on record. -/
structure Counted (o : Outline) (strays : Serial → Prop) (others : Finset String)
    (gone : List Serial) (s : Serial) : Prop where
  key : ∃ other ∈ others, o.keyOf s = some other
  recorded : strays s → s ∈ gone

/-- An entry is linked, and all that is in front of it or will come there is counted. -/
structure Ahead (o : Outline) (strays : Serial → Prop) (others : Finset String)
    (gone : List Serial) (key : String) (s : Serial) : Prop where
  slot : o.slot key = some s
  front : ∃ front back, o.listed = front ++ s :: back ∧ ∀ t ∈ front, o.Counted strays others gone t
  queue : ∀ op ∈ o.ops, ∀ t, op.upserted? = some t → o.Counted strays others gone t

/-- The last operation for an entry is queued, and all that is behind it is counted. -/
structure Awaiting (o : Outline) (strays : Serial → Prop) (others : Finset String)
    (gone : List Serial) (key : String) (s : Serial) : Prop where
  keyed : o.keyOf s = some key
  queue : ∃ before op after, o.ops = before ++ op :: after ∧ op.upserted? = some s ∧
    ∀ op' ∈ after, ∀ t, op'.upserted? = some t → o.Counted strays others gone t

/-- No operation queued before the last one for an entry can take its slot. -/
structure Assured (o : Outline) (key : String) (s : Serial) : Prop where
  slot : o.slot key = some s
  safe : s ∉ o.listed ∨ ∃ op rest, o.ops = op :: rest ∧ op.upserted? = some s
  once : o.ops.Pairwise fun a b => a.upserted? = some s → b.upserted? ≠ some s

section Steps

variable {capacity : Nat} {o o' : Outline} {act : Act} {key : String} {s : Serial}
  {strays : Serial → Prop} {others : Finset String} {gone : List Serial}

theorem Passes.not_store (h : o.Passes act key s others gone) : act ≠ .store key :=
  fun heq => h.excluded (h.stored key heq)

theorem Counted.step {t : Serial} (h : o.Counted strays others gone t)
    (hstep : Step capacity o act o') (hpass : o.Passes act key s others gone) :
    o'.Counted (fun u => strays u ∨ o.strayed? act = some u) others gone t where
  key := by
    obtain ⟨other, hin, hkey⟩ := h.key
    exact ⟨other, hin, hstep.keyOf_eq hkey⟩
  recorded := by
    rintro (hstray | hstray)
    · exact h.recorded hstray
    · exact hpass.recorded t hstray

theorem Counted.mem_others (h : o.Counted strays others gone s) (hkey : o.keyOf s = some key) :
    key ∈ others := by
  obtain ⟨other, hin, hother⟩ := h.key
  rw [hkey] at hother
  cases hother
  exact hin

/-- What a turn adds to the queue is counted. -/
theorem Ordered.counted_of_stored (h : o.Ordered strays) (hstep : Step capacity o act o')
    (hpass : o.Passes act key s others gone) {other : String} {t : Serial}
    (hact : act = .store other) (hslot : o'.slot other = some t) :
    o'.Counted (fun u => strays u ∨ o.strayed? act = some u) others gone t where
  key := ⟨other, hpass.stored other hact, (h.step hstep).keyed other t hslot⟩
  recorded hstray := absurd hslot (((h.step hstep).lost t hstray).2 other)

/-- The slot of a key that is left alone is emptied only for an entry that the worker links. -/
theorem Ordered.slot_kept (h : o.Ordered strays) (hstep : Step capacity o act o')
    (hpass : o.Passes act key s others gone) (hs : o.slot key = some s)
    (hvictim : ∀ op t rest, act = .work → o.ops = op :: rest → op.upserted? = some t →
      Recency.victim? capacity o.listed t o.occupies ≠ some s) :
    o'.slot key = some s := by
  have hother {other : String} {entry : Option Serial} (hne : key ≠ other) :
      Function.update o.slot other entry key = some s := by
    rw [Function.update_of_ne hne]
    exact hs
  cases hstep with
  | enter => exact hother fun heq => hpass.not_store (by rw [heq])
  | leave => exact hother fun heq => hpass.kept true (by rw [heq])
  | stray => exact hother fun heq => hpass.kept false (by rw [heq])
  | link hops hop => exact Ordered.without_of_ne hs (hvictim _ _ _ rfl hops hop)
  | bury hops =>
    refine Ordered.without_of_ne hs ?_
    rintro ⟨rfl⟩
    refine (h.buried s ?_).2 key hs
    rw [hops]
    exact List.mem_cons_self
  | wipe hops =>
    refine absurd ?_ h.unwiped
    rw [hops]
    exact List.mem_cons_self
  | fall =>
    refine Ordered.without_of_ne hs ?_
    rintro ⟨rfl⟩
    exact hpass.alive rfl
  | _ => exact hs

/-- The entries in front have different keys but for those on record. A key whose operation is next
for an unlisted entry is not among them. -/
theorem Ordered.length_front_lt (h : o.Ordered strays) {front back : List Serial}
    (hlisted : o.listed = front ++ back) (hfront : ∀ t ∈ front, o.Counted strays others gone t)
    {op : WriteOp} {t : Serial} {rest : List WriteOp} (hops : o.ops = op :: rest)
    (hop : op.upserted? = some t) (ht : t ∉ o.listed) (hcounted : o.Counted strays others gone t) :
    front.length < others.card + gone.length := by
  obtain ⟨other, hother, hkey⟩ := hcounted.key
  have hin {u : Serial} (hu : u ∈ front) : u ∈ o.listed := by
    rw [hlisted]
    exact List.mem_append_left _ hu
  have hnodup : front.Nodup := by
    have hall := h.nodup
    rw [hlisted] at hall
    exact (List.nodup_append.mp hall).1
  have hname {u : Serial} (hu : u ∈ front) : ∃ name ∈ others,
      o.keyOf u = some name ∧ (name = other → u ∈ gone) := by
    obtain ⟨name, hname, hukey⟩ := (hfront u hu).key
    refine ⟨name, hname, hukey, ?_⟩
    rintro rfl
    have hne : u ≠ t := by
      rintro rfl
      exact ht (hin hu)
    rcases h.pending [] op rest t hops hop u (hin hu) hne (hukey.trans hkey.symm) with hdel | hst
    · cases hdel
    · exact (hfront u hu).recorded hst
  let names : Serial → String := fun u => (o.keyOf u).getD other
  have hnames : (front.toFinset \ gone.toFinset).card ≤ (others.erase other).card := by
    apply Finset.card_le_card_of_injOn names
    · intro u hu
      obtain ⟨hu, hgone⟩ := Finset.mem_sdiff.mp hu
      obtain ⟨name, hmem, hukey, hrecord⟩ := hname (List.mem_toFinset.mp hu)
      have hne : name ≠ other := fun heq => hgone (List.mem_toFinset.mpr (hrecord heq))
      have heq : names u = name := by simp [names, hukey]
      rw [heq]
      exact Finset.mem_erase.mpr ⟨hne, hmem⟩
    · intro u hu v hv heq
      obtain ⟨hu, hugone⟩ := Finset.mem_sdiff.mp hu
      obtain ⟨hv, hvgone⟩ := Finset.mem_sdiff.mp hv
      rw [List.mem_toFinset] at hu hv hugone hvgone
      obtain ⟨_, _, hukey, _⟩ := hname hu
      obtain ⟨_, _, hvkey, _⟩ := hname hv
      have hsame : o.keyOf u = o.keyOf v := by
        rw [hukey, hvkey]
        simpa [names, hukey, hvkey] using heq
      rcases Nat.lt_trichotomy u v with hlt | heq | hlt
      · exact absurd ((hfront u hu).recorded (h.single u (hin hu) v (hin hv) hlt hsame)) hugone
      · exact heq
      · exact absurd ((hfront v hv).recorded (h.single v (hin hv) u (hin hu) hlt hsame.symm)) hvgone
  have hsplit : front.length ≤ (front.toFinset \ gone.toFinset).card + gone.toFinset.card := by
    rw [← List.toFinset_card_of_nodup hnodup]
    exact Finset.card_le_card_sdiff_add_card
  have hrecord : gone.toFinset.card ≤ gone.length := gone.toFinset_card_le
  have herase := Finset.card_erase_add_one hother
  omega

/-- The worker links an entry that still holds its slot. -/
theorem Awaiting.link (h : o.Awaiting strays others gone key s) (hord : o.Ordered strays)
    (hstep : Step capacity o .work o') (hdue : o.Due s) (hslot : o.slot key = some s) :
    o'.Ahead (fun u => strays u ∨ o.strayed? .work = some u) others gone key s := by
  obtain ⟨op, rest, hops, hop, hlast⟩ := hdue
  have hqueue : ∀ op' ∈ rest, ∀ t, op'.upserted? = some t → o.Counted strays others gone t := by
    obtain ⟨before, op', after, hops', hop', hafter⟩ := h.queue
    rw [hops] at hops'
    cases before with
    | nil =>
      cases hops'
      exact hafter
    | cons first before =>
      cases hops'
      exact absurd hop' (hlast op' (by simp))
  cases hstep with
  | idle _ hwork =>
    rw [hwork rfl] at hops
    cases hops
  | link hops' hop' =>
    rw [hops] at hops'
    cases hops'
    rw [hop] at hop'
    cases hop'
    refine ⟨?_, ?_, ?_⟩
    · apply Ordered.without_of_ne hslot
      intro heq
      exact (Recency.victim_spec heq hord.nodup).2.1 rfl
    · have hocc : o.occupies s = true := hord.occupies_iff.mpr ⟨key, hslot⟩
      obtain ⟨back, hback⟩ := Recency.exists_refreshed_eq_cons capacity o.listed s
      refine ⟨[], back, ?_, by simp⟩
      rw [hocc]
      exact hback
    · intro op' hop' t ht
      obtain ⟨hname, hrecord⟩ := hqueue op' hop' t ht
      refine ⟨hname, ?_⟩
      rintro (hstray | hstray)
      · exact hrecord hstray
      · cases hstray
  | bury hops' | wipe hops' | skip hops' =>
    rw [hops] at hops'
    cases hops'
    cases hop

theorem Awaiting.step (h : o.Awaiting strays others gone key s) (hord : o.Ordered strays)
    (hstep : Step capacity o act o') (hpass : o.Passes act key s others gone)
    (hearly : ¬ (act = .work ∧ o.Due s)) :
    o'.Awaiting (fun u => strays u ∨ o.strayed? act = some u) others gone key s where
  keyed := hstep.keyOf_eq h.keyed
  queue := by
    obtain ⟨before, op, after, hops, hop, hafter⟩ := h.queue
    have hkept : ∀ op' ∈ after, ∀ t, op'.upserted? = some t →
        o'.Counted (fun u => strays u ∨ o.strayed? act = some u) others gone t :=
      fun op' hop' t ht => (hafter op' hop' t ht).step hstep hpass
    rcases hstep.queue with ⟨first, hact, htaken⟩ | ⟨more, hmore, _, hstored⟩
    · rw [hops] at htaken
      cases before with
      | nil =>
        refine absurd ⟨hact, op, after, hops, hop, ?_⟩ hearly
        intro op' hop' heq
        exact hpass.excluded ((hafter op' hop' s heq).mem_others h.keyed)
      | cons first' before =>
        obtain ⟨_, hrest⟩ := List.cons.inj htaken
        exact ⟨before, op, after, hrest.symm, hop, hkept⟩
    · refine ⟨before, op, after ++ more, ?_, hop, ?_⟩
      · rw [hmore, hops]
        simp
      · intro op' hop' t ht
        rcases List.mem_append.mp hop' with hin | hin
        · exact hkept op' hin t ht
        · obtain ⟨other, hact, hslot⟩ := hstored op' hin t ht
          exact hord.counted_of_stored hstep hpass hact hslot

/-- A linked entry stays, as long as there is room for what is counted. -/
theorem Ahead.step (h : o.Ahead strays others gone key s) (hord : o.Ordered strays)
    (hstep : Step capacity o act o') (hpass : o.Passes act key s others gone)
    (hroom : others.card + gone.length < capacity) :
    o'.Ahead (fun u => strays u ∨ o.strayed? act = some u) others gone key s := by
  obtain ⟨front, back, hlisted, hfront⟩ := h.front
  have hother {op : WriteOp} {t : Serial} {rest : List WriteOp} (hops : o.ops = op :: rest)
      (hop : op.upserted? = some t) : o.Counted strays others gone t := by
    refine h.queue op ?_ t hop
    rw [hops]
    exact List.mem_cons_self
  have hback {op : WriteOp} {t : Serial} {rest : List WriteOp} (hops : o.ops = op :: rest)
      (hop : op.upserted? = some t) (ht : t ∉ o.listed) (hfull : capacity ≤ o.listed.length) :
      back ≠ [] := by
    rintro rfl
    have hlt := hord.length_front_lt hlisted hfront hops hop ht (hother hops hop)
    have hlength : o.listed.length = front.length + 1 := by simp [hlisted]
    omega
  have hstay {front' : List Serial} (hsub : ∀ t ∈ front', t ∈ front) : ∀ t ∈ front',
      o'.Counted (fun u => strays u ∨ o.strayed? act = some u) others gone t :=
    fun t ht => (hfront t (hsub t ht)).step hstep hpass
  have herase {t : Serial} (hne : t ≠ s) (hlisted' : o'.listed = o.listed.erase t) :
      ∃ front back, o'.listed = front ++ s :: back ∧ ∀ t ∈ front,
        o'.Counted (fun u => strays u ∨ o.strayed? act = some u) others gone t := by
    obtain ⟨front', back', heq, hsub⟩ := Recency.front_erase hlisted hne
    exact ⟨front', back', hlisted'.trans heq, hstay hsub⟩
  refine ⟨hord.slot_kept hstep hpass h.slot ?_, ?_, ?_⟩
  · -- The last of a full list is not the entry, since there is something behind it.
    intro op t rest _ hops hop hvictim
    have ht := Recency.unlisted_of_victim hvictim
    obtain ⟨⟨front', hlast⟩, _, hfull, _⟩ := Recency.victim_spec hvictim hord.nodup
    rcases List.eq_nil_or_concat' back with rfl | ⟨middle, last, rfl⟩
    · exact hback hops hop ht hfull rfl
    · have hnodup := hord.nodup
      rw [hlisted] at hnodup hlast
      have happend : (front ++ s :: middle) ++ [last] = front' ++ [s] := by
        rw [← hlast]
        simp
      obtain ⟨_, heq⟩ := List.append_inj' happend rfl
      cases heq
      have htail := (List.nodup_append.mp hnodup).2.1
      exact (List.nodup_cons.mp htail).1 (by simp)
  · cases hstep with
    | link hops hop =>
      rename_i op t rest
      have hne : t ≠ s := by
        rintro rfl
        exact hpass.excluded ((hother hops hop).mem_others (hord.keyed key t h.slot))
      obtain ⟨front', back', heq, hsub⟩ :=
        Recency.front_refreshed hlisted hne (o.occupies t) (hback hops hop)
      refine ⟨front', back', heq, ?_⟩
      intro u hu
      rcases hsub u hu with hin | rfl
      · exact hstay (fun _ hv => hv) u hin
      · exact (hother hops hop).step (.link hops hop) hpass
    | bury hops =>
      refine herase ?_ rfl
      rintro rfl
      refine (hord.buried _ ?_).2 key h.slot
      rw [hops]
      exact List.mem_cons_self
    | wipe hops =>
      refine absurd ?_ hord.unwiped
      rw [hops]
      exact List.mem_cons_self
    | fall =>
      refine herase ?_ rfl
      rintro rfl
      exact hpass.alive rfl
    | _ => exact ⟨front, back, hlisted, hstay fun _ ht => ht⟩
  · intro op hop t ht
    have hold (hin : op ∈ o.ops) := (h.queue op hin t ht).step hstep hpass
    rcases hstep.queue with ⟨first, _, htaken⟩ | ⟨more, hmore, _, hstored⟩
    · rw [htaken] at hold
      exact hold (List.mem_cons_of_mem _ hop)
    · rw [hmore] at hop
      rcases List.mem_append.mp hop with hin | hin
      · exact hold hin
      · obtain ⟨other, hact, hslot⟩ := hstored op hin t ht
        exact hord.counted_of_stored hstep hpass hact hslot

theorem Step.listed_subset (hstep : Step capacity o act o') {t : Serial} (h : t ∈ o'.listed) :
    t ∈ o.listed ∨ ∃ op rest, act = .work ∧ o.ops = op :: rest ∧ op.upserted? = some t := by
  cases hstep with
  | link hops hop =>
    rcases Recency.mem_of_mem_refreshed h with hin | ⟨rfl, _⟩
    · exact Or.inl hin
    · exact Or.inr ⟨_, _, rfl, hops, hop⟩
  | bury => exact Or.inl (List.mem_of_mem_erase h)
  | wipe => cases h
  | fall => exact Or.inl (List.mem_of_mem_erase h)
  | _ => exact Or.inl h

theorem Assured.step (h : o.Assured key s) (hord : o.Ordered strays)
    (hstep : Step capacity o act o') (hpass : o.Passes act key s others gone)
    (hearly : ¬ (act = .work ∧ o.Due s)) : o'.Assured key s := by
  have honly {op : WriteOp} {rest : List WriteOp} (hact : act = .work) (hops : o.ops = op :: rest) :
      op.upserted? ≠ some s := by
    intro hop
    refine hearly ⟨hact, op, rest, hops, hop, ?_⟩
    have honce := h.once
    rw [hops] at honce
    exact fun op' hop' => (List.pairwise_cons.mp honce).1 op' hop' hop
  have hunlisted {op : WriteOp} {rest : List WriteOp} (hact : act = .work)
      (hops : o.ops = op :: rest) : s ∉ o.listed := by
    rcases h.safe with hout | ⟨op', rest', hops', hop'⟩
    · exact hout
    · exact absurd hop' (honly hact hops')
  have hslot : o'.slot key = some s := by
    refine hord.slot_kept hstep hpass h.slot ?_
    intro op t rest hact hops _ hvictim
    obtain ⟨⟨front, hlast⟩, _⟩ := Recency.victim_spec hvictim hord.nodup
    refine hunlisted hact hops ?_
    rw [hlast]
    simp
  refine ⟨hslot, ?_, ?_⟩
  · rcases hstep.queue with ⟨op, hact, htaken⟩ | ⟨more, hmore, _, _⟩
    · left
      intro hin
      rcases hstep.listed_subset hin with hold | ⟨op', rest, _, hops, hop⟩
      · exact hunlisted hact htaken hold
      · exact honly hact hops hop
    · rcases h.safe with hout | ⟨op, rest, hops, hop⟩
      · left
        intro hin
        rcases hstep.listed_subset hin with hold | ⟨op', rest, hact, hops, hop⟩
        · exact hout hold
        · exact honly hact hops hop
      · right
        refine ⟨op, rest ++ more, ?_, hop⟩
        rw [hmore, hops]
        rfl
  · have honce := h.once
    rcases hstep.queue with ⟨op, _, htaken⟩ | ⟨more, hmore, _, hstored⟩
    · rw [htaken] at honce
      exact (List.pairwise_cons.mp honce).2
    · have hnone (op : WriteOp) (hop : op ∈ more) : op.upserted? ≠ some s := by
        intro heq
        obtain ⟨other, hact, hother⟩ := hstored op hop s heq
        have hkeys := ((hord.step hstep).keyed other s hother).symm.trans
          ((hord.step hstep).keyed key s hslot)
        cases hkeys
        exact hpass.not_store hact
      rw [hmore]
      refine List.pairwise_append.mpr ⟨honce, ?_, fun _ _ b hb _ => hnone b hb⟩
      exact List.pairwise_of_forall_mem_list fun _ _ b hb _ => hnone b hb

end Steps

end Outline

end TimedCache
