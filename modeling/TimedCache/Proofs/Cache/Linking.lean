import TimedCache.Proofs.Cache.Halting

/-!
The worker links an entry. While there is room nobody gives way, so the entry comes to the front of
the list, its timer is renewed, and all else stays as it was.
-/

namespace TimedCache

namespace Cache

variable {V : Type} {c : Cache V} {key : String} {s : Serial}

theorem endOf?_eq (c : Cache V) (s : Serial) :
    c.endOf? s = (c.contents.shown? s).bind fun seen =>
      seen.2.2.map fun stamp => satAdd stamp c.options.expireDelay.millis := by
  unfold endOf? Contents.shown?
  cases c.contents.entry? s <;> rfl

theorem endOf?_of_shown {value : V} {stamp : Option Nat}
    (h : c.contents.shown? s = some (key, value, stamp)) :
    c.endOf? s = stamp.map fun stamp => satAdd stamp c.options.expireDelay.millis := by
  rw [endOf?_eq, h]
  rfl

theorem endOf?_added (hkeyed : c.contents.WellKeyed) (s t : Serial) :
    (c.added s).endOf? t = c.endOf? t := by
  have hshown : (c.added s).contents.shown? t = c.contents.shown? t :=
    (Recency.add_vacated hkeyed c.recency s).1.shown t
  rw [endOf?_eq, endOf?_eq, hshown]
  rfl

theorem schedule_renews (hlast : c.expiry.atLastTick = false) (s : Serial) :
    c.schedule s = { c with expiry := c.renewed s } := by
  unfold schedule renewed endOf? Contents.keyOf
  cases c.contents.entry? s with
  | none => rfl
  | some e =>
    dsimp only [Option.map_some, Option.bind_some]
    cases e.evictAt c.options.expireDelay with
    | none => rfl
    | some moment =>
      rw [hlast]
      rfl

/-- An entry that is stored and keeps its slot is linked, so its timer is renewed. -/
theorem retimed_of_kept {order : List Recency.Spot} (hkeeps : c.recency.Keeps c.contents order)
    (hkeyed : c.contents.WellKeyed) (hfits : (c.added s).recency.Fitting)
    (hs : (c.added s).contents.occupant? key = some s) :
    ((c.added s).contents.occupies s && ((c.added s).contents.handle? s).isSome) = true ∧
      c.retimed s = c.expiry.renew c.clock key s ((c.added s).endOf? s) := by
  have hvacated := (Recency.add_vacated hkeyed c.recency s).1
  have hlinked : (c.added s).contents.occupies s &&
      ((c.added s).contents.handle? s).isSome := by
    obtain ⟨⟨order', hkeeps'⟩, _⟩ := hkeeps.add hkeyed s hfits
    have hlisted := hkeeps.mem_add hkeyed hfits hs (Or.inr rfl)
    exact Bool.and_eq_true_iff.mpr
      ⟨hvacated.wellKeyed.occupies_of_occupant? hs, hkeeps'.isSome_handle?_iff.mpr hlisted⟩
  have hkeyOf : (c.added s).contents.keyOf s = some key := hvacated.wellKeyed.keyOf_of_occupant hs
  refine ⟨hlinked, ?_⟩
  unfold retimed renewed
  rw [if_pos hlinked, hkeyOf]
  rfl

/-- An entry that has a slot and is not listed yet gets a place in front while there is room. -/
theorem upsert_of_room {order : List Recency.Spot} (h : c.recency.Keeps c.contents order)
    (hkeyed : c.contents.WellKeyed) (hfits : (c.added s).recency.Fitting)
    (hslot : c.contents.occupant? key = some s) (hout : s ∉ c.recency.toList)
    (hroom : c.recency.capacity = 0 ∨ c.recency.toList.length < c.recency.capacity)
    (hlast : c.expiry.atLastTick = false) :
    ∃ recency place, recency.toList = s :: c.recency.toList ∧
      c.upsert s = { c with
        recency, contents := c.contents.link s place
        expiry := c.expiry.renew c.clock key s (c.endOf? s) } := by
  have hocc := hkeyed.occupies_of_occupant? hslot
  have hlength : order.length = c.recency.toList.length := by rw [h.toList_eq, List.length_map]
  have hadd := h.add_of_unlinked (h.not_listed hout) hocc
  rw [h.makeRoom_of_room (hlength ▸ hroom)] at hadd
  obtain ⟨_, hlisted, _⟩ := h.add hkeyed s hfits
  have hadded : c.added s = { c with
      recency := (c.recency.admitted c.contents s).1
      contents := c.contents.link s (c.recency.allocate s).1 } := by
    unfold added
    rw [hadd]
    rfl
  have hslot' : (c.added s).contents.occupant? key = some s := by
    rw [hadded]
    exact (Contents.occupant?_link c.contents s _ key).trans hslot
  obtain ⟨hlinked, hrenewed⟩ := retimed_of_kept h hkeyed hfits hslot'
  unfold retimed at hrenewed
  rw [if_pos hlinked] at hrenewed
  refine ⟨(c.recency.admitted c.contents s).1, (c.recency.allocate s).1, ?_, ?_⟩
  · rw [hadd] at hlisted
    refine hlisted.trans ?_
    unfold Recency.refreshed
    rw [if_neg hout, hocc, if_neg (by simp), if_neg (by omega)]
  · rw [upsert_eq, hadd]
    dsimp only
    unfold timed
    rw [if_pos hlinked, schedule_renews (c := c.added s) hlast, hrenewed, endOf?_added hkeyed, hadded]

theorem workWrite_queued (hidle : c.writes.items = []) (op : WriteOp) :
    (c.queued op).workWrite = c.apply op := by
  have hwrites : ({ c.writes with items := [] } : Queue WriteOp) = c.writes := by
    rw [← hidle]
  have hreceived : (c.queued op).received [] = c :=
    congrArg (fun writes => ({ c with writes } : Cache V)) hwrites
  rw [workWrite_of_cons (congrArg (· ++ [op]) hidle), hreceived]

theorem workWrite_queued_before (hidle : c.writes.items = []) (op next : WriteOp) :
    ((c.queued op).queued next).workWrite = (c.queued next).apply op := by
  have hitems : ((c.queued op).queued next).writes.items = [op, next] :=
    congrArg (· ++ [op] ++ [next]) hidle
  have hreceived : ((c.queued op).queued next).received [next] = c.queued next :=
    congrArg (fun items => ({ c with writes := { c.writes with items := items ++ [next] } } : Cache V))
      hidle.symm
  rw [workWrite_of_cons hitems, hreceived]

/-- The worker comes to a new entry that nothing was queued before. -/
theorem workWrite_of_vacant (hvacant : c.contents.occupant? key = none) (value : V) (ttl : Span)
    {wait : Bool} (haccepts : c.accepts wait = true) (hidle : c.writes.items = []) :
    (c.lodge key value ttl wait).2.workWrite =
      ({ c with contents := (c.created key value ttl).place c.nextSerial } : Cache V).upsert
        c.nextSerial := by
  have hlodge := lodge_of_vacant hvacant value ttl wait
  rw [if_pos haccepts] at hlodge
  let d : Cache V := { c with contents := (c.created key value ttl).place c.nextSerial }
  rw [hlodge]
  exact workWrite_queued (c := d) hidle (.set c.nextSerial)

end Cache

namespace System

variable {V : Type} {s : System V}

end System

namespace Cache

variable {V : Type} {c : Cache V}

/-- A new entry has the slot of its key and a place in the list, and nothing else was changed. -/
structure Placed (c c' : Contents V) (key : String) (value : V) (stamp : Option Nat)
    (place : Handle) : Prop where
  wellKeyed : c'.WellKeyed
  size_entries : c'.entries.size = c.entries.size + 1
  newest : c'.shown? c.entries.size = some (key, value, stamp)
  older : ∀ t < c.entries.size, c'.shown? t = c.shown? t
  occupant : ∀ other, c'.occupant? other =
    if key = other then some c.entries.size else c.occupant? other
  handle : c'.handle? c.entries.size = Handle.ofWord? place.toWord

theorem placed_created (hkeyed : c.contents.WellKeyed) (key : String) (value : V) (ttl : Span)
    (place : Handle) :
    Placed c.contents (((c.created key value ttl).place c.nextSerial).link c.nextSerial place) key value
      (c.clock.stampAfter ttl) place where
  wellKeyed := ((hkeyed.create key value _).place _).link _ place
  size_entries := by
    unfold Contents.link
    rw [Contents.size_entries_modify, Contents.entries_place]
    exact Contents.size_entries_create _ _ _ _
  newest := by
    rw [Contents.shown?_link, Contents.shown?_place]
    exact congrArg (Option.map _) (Contents.entry?_created c.contents key value _)
  older t ht := by
    rw [Contents.shown?_link, Contents.shown?_place]
    refine congrArg (Option.map _) ((Contents.entry?_create c.contents key value _ t).trans ?_)
    exact if_neg (Nat.ne_of_lt ht)
  occupant other := (Contents.occupant?_link _ _ _ _).trans
    (Contents.occupant?_place_create c.contents key value _ other)
  handle := by
    have hentry := Contents.entry?_created c.contents key value (c.clock.stampAfter ttl)
    exact Contents.handle?_link ((Contents.entry?_place _ _ _).trans hentry) place

/-! ## The first entry -/

variable {options : Options V} {clock : Clock} (hc : create options clock = .ok c)

include hc

/-- The contents once a first value is stored and linked. -/
theorem contents_first (key : String) (value : V) (ttl : Span) (place : Handle) :
    let contents := ((c.created key value ttl).place 0).link 0 place
    contents.WellKeyed ∧ contents.entries.size = 1 ∧
      contents.shown? 0 = some (key, value, clock.stampAfter ttl) ∧
      ∀ other, contents.occupant? other = if key = other then some 0 else none := by
  have hclock : c.clock = clock := by
    obtain ⟨_, _, rfl⟩ := create_eq_ok hc
    rfl
  have hzero : c.contents.entries.size = 0 := nextSerial_create hc
  have hkeyed : c.contents.WellKeyed := (System.coherent_create hc).keyed
  have hplaced := placed_created hkeyed key value ttl place
  rw [nextSerial_create hc, hclock] at hplaced
  refine ⟨hplaced.wellKeyed, hplaced.size_entries.trans (congrArg (· + 1) hzero), ?_, fun other => ?_⟩
  · have hnewest := hplaced.newest
    rwa [hzero] at hnewest
  · rw [hplaced.occupant, hzero, vacant_create hc]

/-- The worker links the first value that is stored, which sets its timer by the clock of that
moment. -/
theorem workWrite_first (hbound : 0 < options.capacity ∧ options.capacity < Recency.maxPlaces)
    (key : String) (value : V) (ttl : Span) (wait : Bool) (later : Clock) :
    ∃ recency place, recency.toList = [0] ∧
      ({ (c.lodge key value ttl wait).2 with clock := later } : Cache V).workWrite = { c with
        clock := later, recency, contents := ((c.created key value ttl).place 0).link 0 place
        expiry := c.expiry.renew later key 0 ((clock.stampAfter ttl).map fun stamp =>
          satAdd stamp options.expireDelay.millis) } := by
  let d : Cache V := { c with
    clock := later, contents := (c.created key value ttl).place 0 }
  have hzero := nextSerial_create hc
  obtain ⟨hempty, hcapacity, hlast, haccepts, hidle⟩ : c.recency.toList = [] ∧
      c.recency.capacity = options.capacity ∧ c.expiry.atLastTick = false ∧
        c.accepts wait = true ∧ c.writes.items = [] := by
    obtain ⟨_, _, rfl⟩ := create_eq_ok hc
    exact ⟨rfl, rfl, rfl, by cases wait <;> rfl, rfl⟩
  have hlodge := lodge_of_vacant (vacant_create hc key) value ttl wait
  rw [if_pos haccepts, hzero] at hlodge
  have hwork : ({ (c.lodge key value ttl wait).2 with clock := later } : Cache V).workWrite =
      d.upsert 0 := by
    rw [hlodge]
    exact workWrite_queued (c := d) hidle (.set 0)
  obtain ⟨hkeyed, _, hshown, hslots⟩ := contents_first hc key value ttl { index := 0, generation := 0 }
  rw [Contents.shown?_link] at hshown
  have hstored : ({ cache := (c.lodge key value ttl wait).2 } : System V).Arranged :=
    (System.arranged_create hc).step (.store key value ttl wait)
  rw [hlodge] at hstored
  obtain ⟨order, hkeeps⟩ := hstored.keeps (Or.inl (hcapacity ▸ hbound))
  have hfits : (d.added 0).recency.Fitting :=
    Or.inl ((Recency.grows_add d.recency d.contents 0).capacity.trans hcapacity ▸ hbound)
  obtain ⟨recency, place, hlisted, hupsert⟩ := upsert_of_room (c := d) hkeeps hstored.coherent.keyed
    hfits ((hslots key).trans (if_pos rfl)) (by simp [d, hempty]) (by simp [d, hempty]; omega) hlast
  refine ⟨recency, place, hlisted.trans (congrArg (0 :: ·) hempty), ?_⟩
  have hoptions : d.options = options :=
    (show d.options = c.options from rfl).trans (options_create hc)
  rw [hwork, hupsert, endOf?_of_shown hshown, hoptions]

end Cache

namespace System

variable {V : Type} {options : Options V} {clock : Clock} {c : Cache V}

/-- The state once the first value is stored and the worker has come to it. -/
theorem linked_first (hc : Cache.create options clock = .ok c)
    (hbound : 0 < options.capacity ∧ options.capacity < Recency.maxPlaces) (key : String) (value : V)
    (ttl : Span) (wait : Bool) :
    ∃ recency place, recency.toList = [0] ∧
      ({ cache := c } : System V).run [.store key value ttl wait, .workWrite] = { cache := { c with
        clock, recency, contents := ((c.created key value ttl).place 0).link 0 place
        expiry := c.expiry.renew clock key 0 ((clock.stampAfter ttl).map fun stamp =>
          satAdd stamp options.expireDelay.millis) } } := by
  obtain ⟨recency, place, hlisted, hwork⟩ :=
    Cache.workWrite_first hc hbound key value ttl wait clock
  have hclock : (c.lodge key value ttl wait).2.clock = clock := by
    rw [(c.lodge_frame key value ttl wait).2.1]
    obtain ⟨_, _, rfl⟩ := Cache.create_eq_ok hc
    rfl
  have hsame : ({ (c.lodge key value ttl wait).2 with clock } : Cache V) =
      (c.lodge key value ttl wait).2 := by
    rw [← hclock]
  rw [hsame] at hwork
  refine ⟨recency, place, hlisted, ?_⟩
  change ({ cache := (c.lodge key value ttl wait).2.workWrite } : System V) = _
  rw [hwork]

end System

end TimedCache
