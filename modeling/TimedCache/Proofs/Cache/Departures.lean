import TimedCache.Proofs.Cache.Deletions

/-!
How entries leave. A callback is run for an entry when the worker comes to its deletion, evicts it,
or finds its end come. Eviction and expiry take the slot of the entry away, and a deletion has
taken it before, so once an entry is without a slot only a deletion that is still owed to the worker
can be reported for it. Nobody writes to an entry without a slot, so the report shows what was
written last.
-/

namespace TimedCache

namespace Cache

variable {V : Type}

/-- A callback was run for an entry, if for any, and told what the entry holds. -/
def Tells (c c' : Cache V) (reason : Departure) (t : Serial) : Prop :=
  c'.notices = c.notices ∨ ∃ e, c'.contents.entry? t = some e ∧
    c'.notices = c.notices ++ [{ reason, entry := t, key := e.key, value := e.value }]

end Cache

namespace System

variable {V : Type} {s : System V}

/-- A move runs a callback for an entry that leaves with it, and for no other. -/
theorem step_tells (s : System V) (move : Move V) :
    (s.step move).cache.notices = s.cache.notices ∨ ∃ reason t, s.leaving? move reason = some t ∧
      s.cache.Tells (s.step move).cache reason t := by
  have hnotices := s.notices_step move
  cases hdeparts : s.departing? move with
  | none =>
    rw [hdeparts] at hnotices
    exact Or.inl (hnotices.trans (List.append_nil _))
  | some d =>
    obtain ⟨reason, t⟩ := d
    rw [hdeparts, Option.bind_some] at hnotices
    refine Or.inr ⟨reason, t, leaving?_of_departing hdeparts, ?_⟩
    cases hnotice : (s.step move).cache.notice? reason t with
    | none =>
      rw [hnotice] at hnotices
      exact Or.inl (hnotices.trans (List.append_nil _))
    | some n =>
      rw [hnotice] at hnotices
      unfold Cache.notice? at hnotice
      split at hnotice
      · obtain ⟨e, he, rfl⟩ := Option.map_eq_some_iff.mp hnotice
        exact Or.inr ⟨e, he, hnotices⟩
      · cases hnotice

theorem mem_notices_step {move : Move V} {n : Notice V}
    (hn : n ∈ (s.step move).cache.notices) :
    n ∈ s.cache.notices ∨ s.leaving? move n.reason = some n.entry := by
  rcases s.step_tells move with hsame | ⟨reason, t, hleaves, hsame | ⟨e, _, htold⟩⟩
  · exact Or.inl (hsame ▸ hn)
  · exact Or.inl (hsame ▸ hn)
  · rw [htold] at hn
    rcases List.mem_append.mp hn with hold | hnew
    · exact Or.inl hold
    · cases List.mem_singleton.mp hnew
      exact Or.inr hleaves

/-! ## Gone for good -/

/-- An entry without a slot whose deletion, if any, the worker has dealt with. -/
structure Spent (s : System V) (t : Serial) : Prop where
  gone : s.cache.contents.Gone t
  settled : t ∉ s.owed

theorem Coherent.not_taken_now (h : s.Coherent) {t : Serial} (hgone : s.cache.contents.Gone t)
    (move : Move V) : (s.taken? move).toList.count t = 0 := by
  have hnever := h.not_taken_of_gone hgone [move]
  rw [along_cons] at hnever
  exact List.count_eq_zero.mpr fun hin => hnever (List.mem_append_left _ hin)

theorem Coherent.spent_step (h : s.Coherent) {t : Serial} (hspent : s.Spent t) (move : Move V) :
    (s.step move).Spent t where
  gone := (h.step_follows move).ages.gone t hspent.gone
  settled := by
    have hcount := s.count_owed_le_step move t
    rw [h.not_taken_now hspent.gone move, List.count_eq_zero.mpr hspent.settled] at hcount
    exact List.count_eq_zero.mp (by omega)

/-- Nothing that is spent leaves. -/
theorem Coherent.not_leaving_of_spent (h : s.Coherent) {t : Serial} (hspent : s.Spent t)
    (move : Move V) (reason : Departure) : s.leaving? move reason ≠ some t := by
  intro hleaves
  cases hreason : reason with
  | deleted =>
    subst hreason
    exact hspent.settled (mem_owed_of_buried hleaves)
  | evicted | expired =>
    obtain ⟨⟨key, hslot⟩, _⟩ := h.slot_of_leaving hleaves (by simp [hreason])
    exact hspent.gone.2 key hslot

/-- What leaves is spent: a deletion is owed once, and an entry with a slot is not deleted. -/
theorem Coherent.spent_of_leaving (h : s.Coherent) (howed : s.owed.Nodup) {move : Move V}
    {reason : Departure} {t : Serial} (hleaves : s.leaving? move reason = some t) :
    (s.step move).Spent t := by
  have hcount := s.count_owed_le_step move t
  cases hreason : reason with
  | deleted =>
    subst hreason
    have hburied : s.buried? move = some t := hleaves
    have hgone := h.gone_of_owed (mem_owed_of_buried hburied)
    have honce := List.nodup_iff_count_le_one.mp howed t
    rw [h.not_taken_now hgone move, hburied, Option.toList_some, List.count_singleton_self] at hcount
    exact ⟨(h.step_follows move).ages.gone t hgone, List.count_eq_zero.mp (by omega)⟩
  | evicted | expired =>
    obtain ⟨⟨key, hslot⟩, hgone⟩ := h.slot_of_leaving hleaves (by simp [hreason])
    have huntaken : s.taken? move = none := by
      cases move <;> first | rfl | (subst hreason; cases hleaves)
    have hunowed : t ∉ s.owed := fun hin => (h.gone_of_owed hin).2 key hslot
    rw [huntaken, List.count_eq_zero.mpr hunowed] at hcount
    exact ⟨hgone, List.count_eq_zero.mp (by simp at hcount; omega)⟩

/-! ## What was written last -/

/-- The entry that a caller writes to, with what it writes. -/
def written? (s : System V) : Move V → Option (Serial × V)
  | .store key value _ _ | .strandSet key value _ =>
    some ((s.cache.contents.occupant? key).getD s.cache.nextSerial, value)
  | _ => none

end System

namespace Contents

variable {V : Type} {c c' : Contents V}

def valueOf (c : Contents V) (s : Serial) : Option V := (c.entry? s).map (·.value)

theorem valueOf_eq_shown (c : Contents V) (s : Serial) : c.valueOf s = (c.shown? s).map (·.2.1) := by
  unfold valueOf shown?
  rw [Option.map_map]
  rfl

theorem Vacated.valueOf_eq {gone : Option Serial} (h : Vacated c c' gone) :
    c'.valueOf = c.valueOf := by
  funext s
  rw [valueOf_eq_shown, valueOf_eq_shown, h.shown]

theorem valueOf_of_entries (h : c'.entries = c.entries) : c'.valueOf = c.valueOf := by
  unfold valueOf entry?
  rw [h]

end Contents

namespace Cache

variable {V : Type} {c : Cache V}

theorem valueOf_written (h : c.contents.WellKeyed) (key : String) (value : V) (ttl : Span)
    (t : Serial) :
    (c.written key value ttl).valueOf t =
      if t = (c.contents.occupant? key).getD c.nextSerial then some value
      else c.contents.valueOf t := by
  cases hslot : c.contents.occupant? key with
  | some s =>
    obtain ⟨e, he, _⟩ := h.keyed key s hslot
    rw [written_of_occupant hslot, Option.getD_some]
    unfold Contents.valueOf overwritten
    rw [Contents.entry?_modify]
    by_cases hts : t = s
    · rw [if_pos hts.symm, if_pos hts, hts, he]
      rfl
    · rw [if_neg (Ne.symm hts), if_neg hts]
  | none =>
    rw [written_of_vacant hslot, Contents.valueOf_of_entries (Contents.entries_place _ _),
      Option.getD_none]
    unfold Contents.valueOf created
    rw [Contents.entry?_create]
    unfold nextSerial
    split <;> rfl

/-- An entry that is given up again holds its value all the same. -/
theorem entries_lodge (c : Cache V) (key : String) (value : V) (ttl : Span) (wait : Bool) :
    (c.lodge key value ttl wait).2.contents.entries = (c.written key value ttl).entries := by
  cases hslot : c.contents.occupant? key with
  | some s =>
    rw [lodge_of_occupant hslot, written_of_occupant hslot]
    split <;> rfl
  | none =>
    rw [lodge_of_vacant hslot, written_of_vacant hslot]
    split
    · rfl
    · exact Contents.entries_vacate _ _

end Cache

namespace System

variable {V : Type} {s : System V}

/-- Only a caller who stores a value writes to an entry. -/
theorem Coherent.valueOf_step (h : s.Coherent) (move : Move V) (t : Serial) :
    (s.step move).cache.contents.valueOf t =
      ((s.written? move).toList.lookup t).or (s.cache.contents.valueOf t) := by
  have hkeyed := h.keyed
  have hdistant (hmove : move.distant = true) :
      (s.step move).cache.contents.valueOf = s.cache.contents.valueOf := by
    rw [(s.step_of_distant hmove).1]
  have hwritten (key : String) (value : V) (ttl : Span) :
      (s.cache.written key value ttl).valueOf t =
        ([((s.cache.contents.occupant? key).getD s.cache.nextSerial, value)].lookup t).or
          (s.cache.contents.valueOf t) := by
    rw [Cache.valueOf_written hkeyed, List.lookup_cons]
    split
    · rename_i heq
      rw [beq_iff_eq.mpr heq, Option.some_or]
    · rename_i hne
      rw [beq_eq_false_iff_ne.mpr hne]
      rfl
  cases move with
  | store key value ttl wait =>
    refine Eq.trans ?_ (hwritten key value ttl)
    exact congrFun (Contents.valueOf_of_entries (s.cache.entries_lodge key value ttl wait)) t
  | strandSet key value ttl =>
    rw [step_strandSet]
    exact hwritten key value ttl
  | strandDelete other =>
    rw [step_strandDelete]
    exact congrFun (Contents.valueOf_of_entries (Contents.entries_takeKey _ other)) t
  | detach other =>
    rw [step_detach]
    exact congrFun (Contents.valueOf_of_entries (Contents.entries_takeKey _ other)) t
  | workWrite =>
    change s.cache.workWrite.contents.valueOf t = s.cache.contents.valueOf t
    cases hitems : s.cache.writes.items with
    | nil => rw [Cache.workWrite_of_nil hitems]
    | cons op rest =>
      rw [(Cache.workWrite_aside hitems).1.contents]
      cases op with
      | set u => exact congrFun (Recency.add_vacated hkeyed s.cache.recency u).1.valueOf_eq t
      | update u => exact congrFun (Recency.add_vacated hkeyed s.cache.recency u).1.valueOf_eq t
      | delete u => exact congrFun (Recency.remove_vacated hkeyed s.cache.recency u).valueOf_eq t
      | clear => exact congrFun (Recency.clear_vacated hkeyed s.cache.recency).valueOf_eq t
      | flush => rfl
  | workRead =>
    obtain ⟨reads, places, heq⟩ := s.cache.workRead_frame
    change s.cache.workRead.contents.valueOf t = s.cache.contents.valueOf t
    rw [heq]
  | workFired =>
    obtain ⟨base, haside, _, _, hbase⟩ := s.cache.workFired_aside
    change s.cache.workFired.contents.valueOf t = s.cache.contents.valueOf t
    rw [haside.contents]
    rcases hbase with ⟨hcontents, _⟩ | ⟨_, _, _, u, _, _, hcontents, _⟩
    · rw [hcontents]
    · rw [hcontents]
      exact congrFun (Recency.remove_vacated hkeyed s.cache.recency u).valueOf_eq t
  | _ => exact congrFun (hdistant rfl) t

/-- An entry holds what was written to it last. -/
theorem Coherent.valueOf_run (h : s.Coherent) (moves : List (Move V)) (t : Serial) :
    (s.run moves).cache.contents.valueOf t =
      ((s.along written? moves).reverse.lookup t).or (s.cache.contents.valueOf t) := by
  induction moves generalizing s with
  | nil => rfl
  | cons move rest ih =>
    have hstep : (s.written? move).toList.reverse = (s.written? move).toList := by
      cases s.written? move <;> rfl
    rw [run_cons, ih (h.step move), h.valueOf_step, along_cons, List.reverse_append,
      List.lookup_append, hstep, Option.or_assoc]

/-- Nobody writes to an entry without a slot. -/
theorem Coherent.valueOf_of_gone (h : s.Coherent) {t : Serial} (hgone : s.cache.contents.Gone t)
    (move : Move V) : (s.step move).cache.contents.valueOf t = s.cache.contents.valueOf t := by
  have hother (key : String) (value : V) :
      [((s.cache.contents.occupant? key).getD s.cache.nextSerial, value)].lookup t = none := by
    have hne : t ≠ (s.cache.contents.occupant? key).getD s.cache.nextSerial := by
      cases hslot : s.cache.contents.occupant? key with
      | some u =>
        rintro rfl
        exact hgone.2 key hslot
      | none => exact Nat.ne_of_lt hgone.1
    rw [List.lookup_cons, beq_eq_false_iff_ne.mpr hne]
    rfl
  have hnone : (s.written? move).toList.lookup t = none := by
    cases move with
    | store key value ttl wait => exact hother key value
    | strandSet key value ttl => exact hother key value
    | _ => rfl
  rw [h.valueOf_step, hnone, Option.none_or]

/-! ## Every run -/

/-- The entry that is given up again as its insertion is refused. -/
def rolledBack? (s : System V) : Move V → Option Serial
  | .store key _ _ wait =>
    if s.cache.contents.occupant? key = none ∧ s.cache.accepts wait = false then
      some s.cache.nextSerial
    else none
  | _ => none

/-- Each entry left once at most, is spent since, and was reported as it still is. -/
structure Noticed (s : System V) : Prop where
  coherent : s.Coherent
  owed_once : s.owed.Nodup
  once : (s.cache.notices.map (·.entry)).Nodup
  spent : ∀ n ∈ s.cache.notices, s.Spent n.entry
  faithful : ∀ n ∈ s.cache.notices, s.cache.contents.keyOf n.entry = some n.key ∧
    s.cache.contents.valueOf n.entry = some n.value

theorem noticed_create {options : Options V} {clock : Clock} {c : Cache V}
    (hc : Cache.create options clock = .ok c) : ({ cache := c } : System V).Noticed := by
  have hcoherent := coherent_create hc
  obtain ⟨contents, _, rfl⟩ := Cache.create_eq_ok hc
  exact ⟨hcoherent, List.nodup_nil, List.nodup_nil, by simp [Cache.notices], by simp [Cache.notices]⟩

theorem Coherent.owed_once_step (h : s.Coherent) (howed : s.owed.Nodup) (move : Move V) :
    (s.step move).owed.Nodup := by
  rw [List.nodup_iff_count_le_one] at howed ⊢
  intro t
  have hcount := s.count_owed_le_step move t
  have honce := howed t
  by_cases hin : t ∈ s.owed
  · rw [h.not_taken_now (h.gone_of_owed hin) move] at hcount
    omega
  · have htaken := h.count_taken_le [move] t
    rw [along_cons, List.count_append] at htaken
    rw [List.count_eq_zero.mpr hin] at hcount
    omega

theorem Noticed.step (h : s.Noticed) (move : Move V) : (s.step move).Noticed := by
  have hcoherent := h.coherent
  have hspent (n : Notice V) (hn : n ∈ s.cache.notices) : (s.step move).Spent n.entry :=
    hcoherent.spent_step (h.spent n hn) move
  have hfaithful (n : Notice V) (hn : n ∈ s.cache.notices) :
      (s.step move).cache.contents.keyOf n.entry = some n.key ∧
        (s.step move).cache.contents.valueOf n.entry = some n.value :=
    ⟨hcoherent.step_keyOf move (h.faithful n hn).1,
      (hcoherent.valueOf_of_gone (h.spent n hn).gone move).trans (h.faithful n hn).2⟩
  refine ⟨hcoherent.step move, hcoherent.owed_once_step h.owed_once move, ?_, ?_, ?_⟩
  all_goals rcases s.step_tells move with hsame | ⟨reason, t, hleaves, hsame | ⟨e, he, htold⟩⟩
  · rw [hsame]
    exact h.once
  · rw [hsame]
    exact h.once
  · rw [htold, List.map_append]
    refine List.nodup_append.mpr ⟨h.once, List.nodup_singleton t, ?_⟩
    rintro u hu v hv rfl
    cases List.mem_singleton.mp hv
    obtain ⟨n, hn, rfl⟩ := List.mem_map.mp hu
    exact hcoherent.not_leaving_of_spent (h.spent n hn) move reason hleaves
  · rwa [hsame]
  · rwa [hsame]
  · rw [htold]
    intro n hn
    rcases List.mem_append.mp hn with hold | hnew
    · exact hspent n hold
    · cases List.mem_singleton.mp hnew
      exact hcoherent.spent_of_leaving h.owed_once hleaves
  · rwa [hsame]
  · rwa [hsame]
  · rw [htold]
    intro n hn
    rcases List.mem_append.mp hn with hold | hnew
    · exact hfaithful n hold
    · cases List.mem_singleton.mp hnew
      exact ⟨Contents.keyOf_of_entry he, congrArg (Option.map Entry.value) he⟩

theorem Noticed.run (h : s.Noticed) (moves : List (Move V)) : (s.run moves).Noticed :=
  run_preserves (fun _ move hs => hs.step move) h moves

/-- An entry without a slot is reported for its deletion only. -/
theorem Coherent.reason_of_gone (h : s.Coherent) {t : Serial} (hgone : s.cache.contents.Gone t)
    (hnow : ∀ n ∈ s.cache.notices, n.entry = t → n.reason = .deleted) (moves : List (Move V)) :
    ∀ n ∈ (s.run moves).cache.notices, n.entry = t → n.reason = .deleted := by
  induction moves generalizing s with
  | nil => exact hnow
  | cons move rest ih =>
    refine ih (h.step move) ((h.step_follows move).ages.gone t hgone) ?_
    rintro n hn rfl
    rcases mem_notices_step hn with hold | hleaves
    · exact hnow n hold rfl
    · by_contra hreason
      obtain ⟨⟨key, hslot⟩, _⟩ := h.slot_of_leaving hleaves hreason
      exact hgone.2 key hslot

/-- A spent entry that was not reported never will be. -/
theorem Coherent.unreported_of_spent (h : s.Coherent) {t : Serial} (hspent : s.Spent t)
    (hnow : ∀ n ∈ s.cache.notices, n.entry ≠ t) (moves : List (Move V)) :
    ∀ n ∈ (s.run moves).cache.notices, n.entry ≠ t := by
  induction moves generalizing s with
  | nil => exact hnow
  | cons move rest ih =>
    refine ih (h.step move) (h.spent_step hspent move) ?_
    rintro n hn rfl
    rcases mem_notices_step hn with hold | hleaves
    · exact hnow n hold rfl
    · exact h.not_leaving_of_spent hspent move n.reason hleaves

theorem Noticed.reason_of_taken (h : s.Noticed) {moves : List (Move V)} {t : Serial}
    (ht : t ∈ s.along taken? moves) :
    ∀ n ∈ (s.run moves).cache.notices, n.entry = t → n.reason = .deleted := by
  obtain ⟨before, move, after, rfl, htaken⟩ := mem_along ht
  have hbefore := h.run before
  rw [run_append, run_cons]
  generalize s.run before = s' at htaken hbefore ⊢
  have hnow {key : String} (hslot : s'.cache.contents.occupant? key = some t)
      (hcaller : move.ofWorker = false) :
      ∀ n ∈ (s'.step move).cache.notices, n.entry = t → n.reason = .deleted := by
    rw [s'.notices_of_caller hcaller]
    rintro n hn rfl
    exact absurd hslot ((hbefore.spent n hn).gone.2 key)
  have hcoherent := hbefore.coherent.step move
  cases move with
  | detach key =>
    have hslot : s'.cache.contents.occupant? key = some t := htaken
    refine hcoherent.reason_of_gone (hcoherent.detached_gone t ?_) (hnow hslot rfl) after
    rw [step_detach, hslot]
    exact List.mem_append_left _ List.mem_cons_self
  | strandDelete key =>
    have hslot : s'.cache.contents.occupant? key = some t := htaken
    refine hcoherent.reason_of_gone ?_ (hnow hslot rfl) after
    rw [step_strandDelete]
    exact hbefore.coherent.keyed.gone_takeKey hslot
  | _ => cases htaken

/-- The entry of a refused insertion is spent from the start. -/
theorem Coherent.spent_of_rolledBack (h : s.Coherent) {move : Move V} {t : Serial}
    (ht : s.rolledBack? move = some t) :
    t = s.cache.nextSerial ∧ (s.step move).Spent t := by
  have hunowed : s.cache.nextSerial ∉ s.owed := fun hin =>
    Nat.lt_irrefl _ (h.gone_of_owed hin).1
  cases move with
  | store key value ttl wait =>
    unfold rolledBack? at ht
    dsimp only at ht
    split at ht
    · rename_i hcond
      obtain ⟨hvacant, hrefused⟩ := hcond
      cases ht
      have hcount := s.count_owed_le_step (.store key value ttl wait) s.cache.nextSerial
      rw [List.count_eq_zero.mpr hunowed] at hcount
      refine ⟨rfl, ?_, List.count_eq_zero.mp (Nat.le_zero.mp hcount)⟩
      have hkeyed := (h.keyed.create key value (s.cache.clock.stampAfter ttl)).place
        s.cache.nextSerial
      have hvacated := hkeyed.vacated_vacate s.cache.nextSerial
      change (s.cache.lodge key value ttl wait).2.contents.Gone s.cache.nextSerial
      rw [Cache.lodge_of_vacant hvacant, hrefused]
      refine ⟨?_, fun other hother => ((hvacated.occupant_iff other _).mp hother).2 rfl⟩
      change s.cache.contents.entries.size < (Contents.vacate _ _).2.entries.size
      rw [Contents.entries_vacate, Contents.entries_place]
      unfold Cache.created
      rw [Contents.size_entries_create]
      exact Nat.lt_succ_self _
    · cases ht
  | _ => cases ht

/-- A refused insertion leaves an entry that nobody will be told of. -/
theorem Noticed.unreported_of_rolledBack (h : s.Noticed) {moves : List (Move V)} {t : Serial}
    (ht : t ∈ s.along rolledBack? moves) :
    ∀ n ∈ (s.run moves).cache.notices, n.entry ≠ t := by
  obtain ⟨before, move, after, rfl, hrolled⟩ := mem_along ht
  have hbefore := h.run before
  rw [run_append, run_cons]
  generalize s.run before = s' at hrolled hbefore ⊢
  obtain ⟨rfl, hspent⟩ := hbefore.coherent.spent_of_rolledBack hrolled
  refine (hbefore.coherent.step move).unreported_of_spent hspent ?_ after
  have hcaller : move.ofWorker = false := by
    cases move <;> first | rfl | cases hrolled
  rw [s'.notices_of_caller hcaller]
  exact fun n hn => Nat.ne_of_lt (hbefore.spent n hn).gone.1

/-- Over any run each entry is the subject of one callback at most. One that was taken from its slot
to be deleted is not reported as evicted or expired, and one whose insertion was refused not at all.
A report tells the key of the entry and the value that was written to it last. -/
theorem reported_once {options : Options V} {clock : Clock} {c : Cache V}
    (hc : Cache.create options clock = .ok c) {moves : List (Move V)} {s : System V}
    (hs : ({ cache := c } : System V).run moves = s) :
    (∀ t, (s.cache.notices.map (·.entry)).count t ≤ 1) ∧
    (∀ t ∈ ({ cache := c } : System V).along taken? moves, ∀ n ∈ s.cache.notices,
      n.entry = t → n.reason = .deleted) ∧
    (∀ t ∈ ({ cache := c } : System V).along rolledBack? moves, ∀ n ∈ s.cache.notices,
      n.entry ≠ t) ∧
    ∀ n ∈ s.cache.notices, s.cache.contents.keyOf n.entry = some n.key ∧
      (({ cache := c } : System V).along written? moves).reverse.lookup n.entry = some n.value := by
  have hstart := noticed_create hc
  have hnoticed := hs ▸ hstart.run moves
  refine ⟨List.nodup_iff_count_le_one.mp hnoticed.once,
    fun t ht => hs ▸ hstart.reason_of_taken ht,
    fun t ht => hs ▸ hstart.unreported_of_rolledBack ht, ?_⟩
  intro n hn
  obtain ⟨hkey, hvalue⟩ := hnoticed.faithful n hn
  have hlast := hstart.coherent.valueOf_run moves n.entry
  have hempty : c.contents.valueOf n.entry = none := by
    obtain ⟨contents, hcontents, rfl⟩ := Cache.create_eq_ok hc
    exact congrArg (Option.map _) (Contents.entry?_withShards hcontents n.entry)
  rw [hs, hvalue, hempty, Option.or_none] at hlast
  exact ⟨hkey, hlast.symm⟩

/-- An entry is deleted before the worker has linked it, in a cache of one entry. -/
theorem reported_once_early :
    ∃ (c : Cache Nat) (s : System Nat),
      ({ cache := c } : System Nat).run
        ([.store "k" 1 .zero false, .detach "k", .sendDelete c.nextSerial] ++
          List.replicate 2 .workWrite) = s ∧
      (s.cache.notices.map (·.entry)).count c.nextSerial = 1 ∧
      ∃ n ∈ s.cache.notices, n.entry = c.nextSerial ∧ n.reason = .deleted ∧ n.value = 1 := by
  let options : Options Nat := { capacity := 1, onDelete := some {} }
  obtain ⟨c, hc⟩ := Cache.exists_create (show options.shards ≤ _ by decide) { unix := 0 }
  let calls : List (Move Nat) := [.store "k" 1 .zero false, .detach "k", .sendDelete c.nextSerial]
  let moves := calls ++ List.replicate 2 .workWrite
  have halive : (({ cache := c } : System Nat).run moves).cache.isClosed = false := by
    refine alive_of_tame hc ?_ (by decide) (by simp [moves, calls])
    rintro hook (hhook | hhook) key <;> cases hhook
    rfl
  obtain ⟨hitems, _, htaken⟩ := run_store_delete hc "k" 1 .zero false
  have hdeleted : c.nextSerial ∈ ({ cache := c } : System Nat).along taken? moves := by
    rw [along_append, htaken]
    exact List.mem_append_left _ List.mem_cons_self
  have hburied : ({ cache := c } : System Nat).along buried? moves = [c.nextSerial] := by
    rw [run_append] at halive
    rw [along_append, along_buried_workWrites _ 2 halive, hitems]
    rfl
  have hreported := (coherent_create hc).reported_run moves
  obtain ⟨s, hs⟩ : ∃ s, ({ cache := c } : System Nat).run moves = s := ⟨_, rfl⟩
  obtain ⟨honce, hreason, _, htold⟩ := reported_once hc hs
  rw [hburied, hs, Cache.reported_eq_told, Cache.options_create hc] at hreported
  have hin : c.nextSerial ∈ s.cache.told .deleted := by
    rw [hreported]
    exact List.mem_append_right _ List.mem_cons_self
  obtain ⟨n, hn, hentry⟩ := List.mem_map.mp hin
  replace hn := (List.mem_filter.mp hn).1
  have hpos := List.count_pos_iff.mpr (List.mem_map.mpr ⟨n, hn, hentry⟩)
  refine ⟨c, s, hs, Nat.le_antisymm (honce _) hpos, n, hn, hentry,
    hreason c.nextSerial hdeleted n hn hentry, ?_⟩
  have hwritten : ({ cache := c } : System Nat).along written? moves =
      [((c.contents.occupant? "k").getD c.nextSerial, 1)] := rfl
  have hlast := (htold n hn).2
  rw [hwritten, Cache.vacant_create hc, hentry] at hlast
  simpa using hlast.symm

end System

end TimedCache
