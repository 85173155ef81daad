import TimedCache.Proofs.Cache.Readers
import TimedCache.Proofs.Recency.Operations

/-!
The bound on the number of entries. Callers fill the slots and the worker bounds the list, so the
two are held together by what is still queued: an entry with a slot is linked, or the operation
that will link it waits for the worker. Only a caller who fails for want of a deadline leaves behind
an entry of which the worker is never told.
-/

namespace TimedCache

namespace Contents

variable {V : Type}

/-- No entry was linked or unlinked, and new ones are not linked. -/
structure NodesKept (c c' : Contents V) : Prop where
  old : ∀ s e, c.entry? s = some e → ∃ e', c'.entry? s = some e' ∧ e'.node = e.node
  new : ∀ s e', c'.entry? s = some e' → c.entry? s = none → e'.node = Handle.unlinked

theorem NodesKept.of_eq {c c' : Contents V} (h : ∀ s, c'.entry? s = c.entry? s) :
    NodesKept c c' where
  old s e he := ⟨e, (h s).trans he, rfl⟩
  new s e' he' hnone := by
    rw [h, hnone] at he'
    cases he'

theorem nodesKept_overwrite (c : Contents V) (s : Serial) (value : V) (stamp : Option Nat) :
    NodesKept c (c.modify s (·.overwrite value stamp)) where
  old t e he := by
    rw [entry?_modify, he]
    split
    · exact ⟨_, rfl, e.node_overwrite value stamp⟩
    · exact ⟨e, rfl, rfl⟩
  new t e' he' hnone := by
    rw [entry?_modify, hnone] at he'
    split at he' <;> cases he'

theorem nodesKept_create (c : Contents V) (key : String) (value : V) (stamp : Option Nat) :
    NodesKept c (c.create key value stamp).2 where
  old s e he := by
    rw [entry?_create, if_neg (Nat.ne_of_lt (lt_size_of_made he))]
    exact ⟨e, he, rfl⟩
  new s e' he' hnone := by
    rw [entry?_create] at he'
    split at he'
    · cases he'
      rfl
    · rw [hnone] at he'
      cases he'

theorem NodesKept.trans {c c' c'' : Contents V} (hfirst : NodesKept c c')
    (hsecond : NodesKept c' c'') : NodesKept c c'' where
  old s e he := by
    obtain ⟨e', he', hsame⟩ := hfirst.old s e he
    obtain ⟨e'', he'', hsame'⟩ := hsecond.old s e' he'
    exact ⟨e'', he'', hsame'.trans hsame⟩
  new s e'' he'' hnone := by
    cases he' : c'.entry? s with
    | none => exact hsecond.new s e'' he'' he'
    | some e' =>
      obtain ⟨e, he, hsame⟩ := hsecond.old s e' he'
      rw [he''] at he
      cases he
      exact hsame.trans (hfirst.new s e' he' hnone)

end Contents

namespace Cache

variable {V : Type} {c : Cache V}

theorem lodge_nodesKept (c : Cache V) (key : String) (value : V) (ttl : Span) (wait : Bool) :
    Contents.NodesKept c.contents (c.lodge key value ttl wait).2.contents := by
  cases hs : c.contents.occupant? key with
  | some s =>
    have hkept := c.contents.nodesKept_overwrite s value (c.clock.stampAfter ttl)
    rw [lodge_of_occupant hs]
    cases c.accepts wait <;> exact hkept
  | none =>
    have hcreated := c.contents.nodesKept_create key value (c.clock.stampAfter ttl)
    have hplaced : Contents.NodesKept (c.created key value ttl)
        ((c.created key value ttl).place c.nextSerial) :=
      .of_eq fun t => Contents.entry?_place _ _ t
    rw [lodge_of_vacant hs]
    cases c.accepts wait with
    | true => exact hcreated.trans hplaced
    | false => exact (hcreated.trans hplaced).trans (.of_eq fun t => Contents.entry?_vacate _ _ t)

/-- A caller who stores a value leaves an entry in a slot that was vacant only if its operation is
queued. -/
theorem lodge_occupant (h : c.contents.WellKeyed) (key : String) (value : V) (ttl : Span)
    (wait : Bool) {other : String} {t : Serial}
    (ht : (c.lodge key value ttl wait).2.contents.occupant? other = some t) :
    c.contents.occupant? other = some t ∨ .set t ∈ (c.lodge key value ttl wait).2.writes.items := by
  cases hs : c.contents.occupant? key with
  | some s =>
    rw [lodge_of_occupant hs] at ht
    left
    cases haccepts : c.accepts wait <;> rw [haccepts] at ht <;> exact ht
  | none =>
    have hslots := Contents.occupant?_place_create c.contents key value (c.clock.stampAfter ttl)
    rw [lodge_of_vacant hs] at ht ⊢
    cases haccepts : c.accepts wait with
    | true =>
      rw [haccepts] at ht
      have hslot := (hslots other).symm.trans ht
      split at hslot
      · cases hslot
        right
        exact List.mem_append_right _ List.mem_cons_self
      · exact Or.inl hslot
    | false =>
      rw [haccepts] at ht
      have hplaced := (h.create key value (c.clock.stampAfter ttl)).place c.nextSerial
      have hvacated := hplaced.vacated_vacate c.nextSerial
      obtain ⟨hslot, hne⟩ := (hvacated.occupant_iff other t).mp ht
      replace hslot := (hslots other).symm.trans hslot
      split at hslot
      · cases hslot
        exact absurd rfl hne
      · exact Or.inl hslot

theorem written_nodesKept (c : Cache V) (key : String) (value : V) (ttl : Span) :
    Contents.NodesKept c.contents (c.written key value ttl) := by
  cases hs : c.contents.occupant? key with
  | some s =>
    rw [written_of_occupant hs]
    exact c.contents.nodesKept_overwrite s value _
  | none =>
    have hcreated := c.contents.nodesKept_create key value (c.clock.stampAfter ttl)
    rw [written_of_vacant hs]
    exact hcreated.trans (.of_eq fun t => Contents.entry?_place _ _ t)

/-- The entries whose insertion the worker has not seen yet. -/
def queuedSets (c : Cache V) : List Serial :=
  c.writes.items.filterMap fun
    | .set s => some s
    | _ => none

theorem mem_queuedSets {s : Serial} : s ∈ c.queuedSets ↔ .set s ∈ c.writes.items := by
  unfold queuedSets
  rw [List.mem_filterMap]
  constructor
  · rintro ⟨op, hop, hs⟩
    cases op <;> cases hs
    exact hop
  · intro hop
    exact ⟨.set s, hop, rfl⟩

end Cache

namespace System

variable {V : Type}

/-- The list is in order as long as its arena fits. -/
structure Arranged (s : System V) : Prop where
  coherent : s.Coherent
  capacity : s.cache.recency.capacity = s.cache.options.capacity
  keeps : s.cache.recency.Fitting → ∃ order, s.cache.recency.Keeps s.cache.contents order

theorem arranged_create {options : Options V} {clock : Clock} {c : Cache V}
    (h : Cache.create options clock = .ok c) : ({ cache := c } : System V).Arranged := by
  have hcoherent := coherent_create h
  obtain ⟨contents, hcontents, rfl⟩ := Cache.create_eq_ok h
  have hempty := Contents.entry?_withShards hcontents
  exact ⟨hcoherent, rfl, fun _ => ⟨[], Recency.keeps_withCapacity _ hempty⟩⟩

/-- The entry that is left in a slot by a caller who fails for want of a deadline. -/
def stranded? (s : System V) : Move V → Option Serial
  | .strandSet key _ _ =>
    if s.cache.contents.occupant? key = none then some s.cache.nextSerial else none
  | _ => none

/-- While the worker lives, the list holds every entry with a slot but those that are still to be
linked and those that are stranded. -/
def Covered (s : System V) (stranded : List Serial) : Prop :=
  s.cache.recency.Fitting → s.cache.isClosed = false → ∀ key t,
    s.cache.contents.occupant? key = some t →
      t ∈ s.cache.recency.toList ∨ .set t ∈ s.cache.writes.items ∨ t ∈ stranded

theorem covered_create {options : Options V} {clock : Clock} {c : Cache V}
    (h : Cache.create options clock = .ok c) : ({ cache := c } : System V).Covered [] := by
  intro _ _ key t ht
  rw [show ({ cache := c } : System V).cache = c from rfl, Cache.vacant_create h] at ht
  cases ht

end System

namespace Recency

variable {V : Type} {r : Recency} {c : Contents V} {order : List Spot}

theorem Keeps.of_nodesKept {c' : Contents V} (h : r.Keeps c order)
    (hkept : Contents.NodesKept c c') : r.Keeps c' order :=
  h.of_contents hkept.old hkept.new

/-- Adding an entry to the list keeps every other one that holds a slot afterwards. -/
theorem Keeps.mem_add (h : r.Keeps c order) (hkeyed : c.WellKeyed) {s t : Serial}
    (hfits : (r.add c s).2.1.Fitting) {key : String}
    (hslot : (r.add c s).2.2.occupant? key = some t) (ht : t ∈ r.toList ∨ t = s) :
    t ∈ (r.add c s).2.1.toList := by
  obtain ⟨hvacated, _⟩ := add_vacated hkeyed r s
  obtain ⟨hbefore, hvictim⟩ := (hvacated.occupant_iff key t).mp hslot
  obtain ⟨_, hlist, hevicted⟩ := h.add hkeyed s hfits
  have hocc := hkeyed.occupies_of_occupant? hbefore
  rw [hlist]
  rw [hevicted] at hvictim
  unfold refreshed
  unfold victim? at hvictim
  rcases eq_or_ne t s with rfl | hts
  · rw [hocc]
    simp only [Bool.not_true, Bool.false_eq_true, if_false]
    split
    · exact List.mem_cons_self
    · split <;> exact List.mem_cons_self
  · have hlisted : t ∈ r.toList := ht.resolve_right hts
    split
    · exact List.mem_cons_of_mem _ ((List.mem_erase_of_ne hts).mpr hlisted)
    · rename_i hnew
      split
      · exact hlisted
      · rename_i hs
        split
        · rename_i hfull
          rw [if_pos ⟨hnew, by simpa using hs, hfull⟩] at hvictim
          apply List.mem_cons_of_mem
          obtain ⟨front, last, hlast⟩ :=
            (List.eq_nil_or_concat' r.toList).resolve_left (List.ne_nil_of_mem hlisted)
          rw [hlast] at hlisted hvictim ⊢
          rw [List.dropLast_concat]
          rcases List.mem_append.mp hlisted with hin | hin
          · exact hin
          · cases List.mem_singleton.mp hin
            rw [List.getLast?_concat] at hvictim
            simp [Option.filter, hocc] at hvictim
        · exact List.mem_cons_of_mem _ hlisted

end Recency

namespace Cache

variable {V : Type} {c : Cache V}

/-- A write operation leaves the list in order, and keeps each entry with a slot linked that was
linked before or whose insertion it was. -/
theorem drawn_covers {order : List Recency.Spot} {op : WriteOp}
    (h : c.recency.Keeps c.contents order) (hkeyed : c.contents.WellKeyed)
    (hfits : (c.drawn op).recency.Fitting) :
    (∃ order', (c.drawn op).recency.Keeps (c.drawn op).contents order') ∧
      ∀ key t, (c.drawn op).contents.occupant? key = some t →
        (c.contents.occupant? key = some t ∧
          (t ∈ c.recency.toList ∨ op = .set t → t ∈ (c.drawn op).recency.toList)) := by
  have hadd (s : Serial) (hfits : (c.added s).recency.Fitting) (key : String) (t : Serial)
      (ht : (c.added s).contents.occupant? key = some t) :
      c.contents.occupant? key = some t ∧
        (t ∈ c.recency.toList ∨ t = s → t ∈ (c.added s).recency.toList) := by
    refine ⟨?_, h.mem_add hkeyed hfits ht⟩
    exact (((Recency.add_vacated hkeyed c.recency s).1.occupant_iff key t).mp ht).1
  cases op with
  | set s =>
    refine ⟨(h.add hkeyed s hfits).1, ?_⟩
    intro key t ht
    obtain ⟨hslot, hlisted⟩ := hadd s hfits key t ht
    refine ⟨hslot, ?_⟩
    rintro (hin | heq)
    · exact hlisted (Or.inl hin)
    · cases heq
      exact hlisted (Or.inr rfl)
  | update s =>
    refine ⟨(h.add hkeyed s hfits).1, ?_⟩
    intro key t ht
    obtain ⟨hslot, hlisted⟩ := hadd s hfits key t ht
    refine ⟨hslot, ?_⟩
    rintro (hin | heq)
    · exact hlisted (Or.inl hin)
    · cases heq
  | delete s =>
    obtain ⟨⟨order', hkeeps, _⟩, hlist, _⟩ := h.remove s
    refine ⟨⟨order', hkeeps⟩, ?_⟩
    intro key t ht
    have hvacated := Recency.remove_vacated hkeyed c.recency s
    obtain ⟨hslot, hne⟩ := (hvacated.occupant_iff key t).mp ht
    refine ⟨hslot, ?_⟩
    rintro (hin | heq)
    · change t ∈ (c.recency.remove c.contents s).2.1.toList
      rw [hlist]
      refine (List.mem_erase_of_ne ?_).mpr hin
      rintro rfl
      exact hne rfl
    · cases heq
  | clear =>
    refine ⟨⟨[], h.clear.of_entries_eq fun t => Contents.entry?_clearSlots _ t⟩, ?_⟩
    intro key t ht
    have hnone : (c.drawn .clear).contents.occupant? key = none :=
      Contents.occupant?_clearSlots _ key
    rw [hnone] at ht
    cases ht
  | flush =>
    refine ⟨⟨order, h⟩, ?_⟩
    intro key t ht
    refine ⟨ht, ?_⟩
    rintro (hin | heq)
    · exact hin
    · cases heq

theorem grows_drawn (c : Cache V) (op : WriteOp) : Recency.Grows c.recency (c.drawn op).recency := by
  cases op with
  | set s => exact Recency.grows_add c.recency c.contents s
  | update s => exact Recency.grows_add c.recency c.contents s
  | delete s => exact Recency.grows_remove c.recency c.contents s
  | clear => exact Recency.grows_clear c.recency c.contents
  | flush => exact .refl _

/-- What the worker and those who only write never undo, and what they never do. -/
structure Later (c c' : Cache V) : Prop where
  grows : Recency.Grows c.recency c'.recency
  alive : c'.isClosed = false → c.isClosed = false
  timestamp : c.clock.timestamp ≤ c'.clock.timestamp
  options : c'.options = c.options
  unread : c.reads.sink.items = [] → c'.reads.sink.items = []

namespace Later

variable {c c' c'' : Cache V}

theorem refl (c : Cache V) : Later c c := ⟨.refl _, id, Nat.le_refl _, rfl, id⟩

theorem trans (hfirst : Later c c') (hsecond : Later c' c'') : Later c c'' where
  grows := hfirst.grows.trans hsecond.grows
  alive h := hfirst.alive (hsecond.alive h)
  timestamp := hfirst.timestamp.trans hsecond.timestamp
  options := hsecond.options.trans hfirst.options
  unread h := hsecond.unread (hfirst.unread h)

theorem of_aside (h : Aside c c') : Later c c' where
  grows := by
    rw [h.recency]
    exact .refl _
  alive halive := by
    have hwrites := (h.queues_of_alive halive).1
    unfold isClosed at halive ⊢
    rwa [hwrites] at halive
  timestamp := Nat.le_of_eq (congrArg Clock.timestamp h.clock.symm)
  options := h.options
  unread hnone := by
    rcases h.queues with ⟨_, hreads, _⟩ | ⟨_, hreads, _⟩
    · rw [hreads]
      exact hnone
    · rw [hreads]
      rfl

end Later

theorem later_workWrite (c : Cache V) : Later c c.workWrite := by
  cases hitems : c.writes.items with
  | nil =>
    rw [workWrite_of_nil hitems]
    exact .refl c
  | cons op rest =>
    obtain ⟨haside, hwrites, hoptions⟩ := workWrite_aside hitems
    refine Later.trans ?_ (Later.of_aside haside)
    refine ⟨(c.received rest).grows_drawn op, ?_, ?_, hoptions, ?_⟩
    · unfold isClosed
      rw [hwrites]
      exact id
    · cases op <;> exact Nat.le_refl _
    · cases op <;> exact id

theorem later_workRead (c : Cache V) : Later c c.workRead := by
  unfold workRead
  split
  · rename_i batch reads hreceive
    refine ⟨Recency.grows_hitAll _ _, id, Nat.le_refl _, rfl, ?_⟩
    intro hnone
    unfold ReadTracker.receive? Queue.receive? at hreceive
    rw [hnone] at hreceive
    cases hreceive
  · exact .refl c

theorem later_workFired (c : Cache V) : Later c c.workFired := by
  unfold workFired
  split
  · rename_i task key fired _
    have haside := ({ c with fired } : Cache V).expire_aside task key
    refine Later.trans ?_ (Later.of_aside haside)
    split
    · exact ⟨Recency.grows_remove _ _ _, id, Nat.le_refl _, rfl, id⟩
    · exact ⟨.refl _, id, Nat.le_refl _, rfl, id⟩
  · exact .refl c

theorem later_work (c : Cache V) : Later c c.work := by
  by_cases hwrites : c.writes.items = []
  · by_cases hbatches : c.reads.sink.items = []
    · rw [work_eq_workFired hwrites hbatches]
      exact c.later_workFired
    · rw [work_eq_workRead hwrites hbatches]
      exact c.later_workRead
  · rw [work_eq_workWrite hwrites]
    exact c.later_workWrite

theorem later_workSteps (c : Cache V) (n : Nat) : Later c (c.workSteps n) := by
  induction n generalizing c with
  | zero => exact .refl c
  | succ n ih => exact c.later_work.trans (ih c.work)

end Cache

namespace System

variable {V : Type} {s : System V}

/-- A move that leaves the list alone. -/
theorem Arranged.of_same_list (h : s.Arranged) {s' : System V} (hcoherent : s'.Coherent)
    (hoptions : s'.cache.options = s.cache.options) (hrecency : s'.cache.recency = s.cache.recency)
    (hnodes : Contents.NodesKept s.cache.contents s'.cache.contents) : s'.Arranged where
  coherent := hcoherent
  capacity := by
    rw [hrecency, hoptions]
    exact h.capacity
  keeps hfits := by
    rw [hrecency] at hfits ⊢
    obtain ⟨order, hkeeps⟩ := h.keeps hfits
    exact ⟨order, hkeeps.of_nodesKept hnodes⟩

/-- A move that leaves the list alone, takes no operation from the queue, and gives a slot only to
an entry whose insertion is queued or that is stranded. -/
theorem Covered.of_same_list {stranded more : List Serial} (h : s.Covered stranded)
    {s' : System V} (hrecency : s'.cache.recency = s.cache.recency)
    (hclosed : s'.cache.isClosed = false → s.cache.isClosed = false)
    (hslots : s'.cache.isClosed = false → ∀ key t, s'.cache.contents.occupant? key = some t →
      s.cache.contents.occupant? key = some t ∨ .set t ∈ s'.cache.writes.items ∨ t ∈ more)
    (hitems : s'.cache.isClosed = false → s.cache.writes.items ⊆ s'.cache.writes.items) :
    s'.Covered (stranded ++ more) := by
  intro hfits halive key t ht
  rw [hrecency] at hfits ⊢
  rcases hslots halive key t ht with hold | hqueued | hmore
  · rcases h hfits (hclosed halive) key t hold with hlisted | hqueued | hstranded
    · exact Or.inl hlisted
    · exact Or.inr (Or.inl (hitems halive hqueued))
    · exact Or.inr (Or.inr (List.mem_append_left _ hstranded))
  · exact Or.inr (Or.inl hqueued)
  · exact Or.inr (Or.inr (List.mem_append_right _ hmore))

/-- An entry that has a slot once the worker has taken a write operation had it before, and is
linked if it was before or if it is the one inserted. -/
theorem Arranged.listed_workWrite (h : s.Arranged) (hfits : s.cache.workWrite.recency.Fitting)
    {key : String} {t : Serial} (ht : s.cache.workWrite.contents.occupant? key = some t) :
    s.cache.contents.occupant? key = some t ∧
      (t ∈ s.cache.recency.toList ∨ s.cache.writes.items.head? = some (.set t) →
        t ∈ s.cache.workWrite.recency.toList) := by
  cases hitems : s.cache.writes.items with
  | nil =>
    rw [Cache.workWrite_of_nil hitems] at ht ⊢
    exact ⟨ht, fun hlisted => hlisted.resolve_right nofun⟩
  | cons op rest =>
    obtain ⟨haside, _, _⟩ := Cache.workWrite_aside hitems
    rw [haside.contents] at ht
    rw [haside.recency] at hfits ⊢
    obtain ⟨order, hkeeps⟩ := h.keeps (((s.cache.received rest).grows_drawn op).fitting hfits)
    obtain ⟨hslot, hlisted⟩ :=
      (Cache.drawn_covers (c := s.cache.received rest) hkeeps h.coherent.keyed hfits).2 key t ht
    refine ⟨hslot, fun hin => hlisted (hin.imp_right fun hhead => ?_)⟩
    exact Option.some.inj hhead

theorem Arranged.workWrite (h : s.Arranged) : (s.step .workWrite).Arranged := by
  have hcoherent := h.coherent.step .workWrite
  cases hitems : s.cache.writes.items with
  | nil =>
    have hsame : s.step .workWrite = s := by
      change ({ s with cache := s.cache.workWrite } : System V) = s
      rw [Cache.workWrite_of_nil hitems]
    rw [hsame]
    exact h
  | cons op rest =>
    obtain ⟨haside, _, hoptions⟩ := Cache.workWrite_aside hitems
    have hgrows := (s.cache.received rest).grows_drawn op
    refine ⟨hcoherent, ?_, ?_⟩
    · change s.cache.workWrite.recency.capacity = s.cache.workWrite.options.capacity
      rw [haside.recency, haside.options, hoptions, hgrows.capacity]
      exact h.capacity
    · intro hfits
      change s.cache.workWrite.recency.Fitting at hfits
      change ∃ order, s.cache.workWrite.recency.Keeps s.cache.workWrite.contents order
      rw [haside.recency] at hfits
      rw [haside.recency, haside.contents]
      obtain ⟨order, hkeeps⟩ := h.keeps (hgrows.fitting hfits)
      exact (Cache.drawn_covers (c := s.cache.received rest) hkeeps h.coherent.keyed hfits).1

/-- The notes of reads move entries within the list. -/
theorem Arranged.listed_workRead (h : s.Arranged) (hfits : s.cache.workRead.recency.Fitting)
    {t : Serial} (ht : t ∈ s.cache.recency.toList) : t ∈ s.cache.workRead.recency.toList := by
  obtain ⟨reads, places, heq⟩ := s.cache.workRead_frame
  rw [heq] at hfits ⊢
  obtain ⟨order, hkeeps⟩ := h.keeps ((s.cache.recency.grows_hitAll places).fitting hfits)
  obtain ⟨order', hhit, hperm⟩ := hkeeps.hitAll places
  rw [hkeeps.toList_eq] at ht
  change t ∈ (s.cache.recency.hitAll places).toList
  rw [hhit.toList_eq]
  exact (hperm.map _).mem_iff.mpr ht

theorem Arranged.workRead (h : s.Arranged) : (s.step .workRead).Arranged := by
  have hcoherent := h.coherent.step .workRead
  obtain ⟨reads, places, heq⟩ := s.cache.workRead_frame
  have hstep : s.step .workRead =
      { s with cache := { s.cache with reads, recency := s.cache.recency.hitAll places } } :=
    congrArg (fun c => ({ s with cache := c } : System V)) heq
  have hgrows := s.cache.recency.grows_hitAll places
  rw [hstep] at hcoherent ⊢
  refine ⟨hcoherent, hgrows.capacity.trans h.capacity, ?_⟩
  intro hfits
  obtain ⟨order, hkeeps⟩ := h.keeps (hgrows.fitting hfits)
  obtain ⟨order', hhit, _⟩ := hkeeps.hitAll places
  exact ⟨order', hhit⟩

/-- An entry that has a slot once the worker has come to a fired timer stays linked. -/
theorem Arranged.listed_workFired (h : s.Arranged) (hfits : s.cache.workFired.recency.Fitting)
    {key : String} {t : Serial} (ht : s.cache.workFired.contents.occupant? key = some t)
    (hin : t ∈ s.cache.recency.toList) : t ∈ s.cache.workFired.recency.toList := by
  obtain ⟨base, haside, _, _, hbase⟩ := s.cache.workFired_aside
  rw [haside.contents] at ht
  rw [haside.recency] at hfits ⊢
  rcases hbase with ⟨_, hrecency⟩ | ⟨_, _, _, u, _, _, hcontents, hrecency⟩
  · rw [hrecency]
    exact hin
  · rw [hcontents] at ht
    rw [hrecency] at hfits ⊢
    have hgrows := Recency.grows_remove s.cache.recency s.cache.contents u
    obtain ⟨order, hkeeps⟩ := h.keeps (hgrows.fitting hfits)
    have hvacated := Recency.remove_vacated h.coherent.keyed s.cache.recency u
    change t ∈ (s.cache.recency.remove s.cache.contents u).2.1.toList
    rw [(hkeeps.remove u).2.1]
    refine (List.mem_erase_of_ne ?_).mpr hin
    rintro rfl
    exact ((hvacated.occupant_iff key t).mp ht).2 rfl

theorem Arranged.workFired (h : s.Arranged) : (s.step .workFired).Arranged := by
  have hcoherent := h.coherent.step .workFired
  obtain ⟨base, haside, _, hoptions, hbase⟩ := s.cache.workFired_aside
  rcases hbase with ⟨hcontents, hrecency⟩ | ⟨_, _, _, t, _, _, hcontents, hrecency⟩
  · apply h.of_same_list hcoherent
    · exact haside.options.trans hoptions
    · exact haside.recency.trans hrecency
    · change Contents.NodesKept _ s.cache.workFired.contents
      rw [haside.contents, hcontents]
      exact .of_eq fun _ => rfl
  · have hgrows := Recency.grows_remove s.cache.recency s.cache.contents t
    have hrecency' : s.cache.workFired.recency = (s.cache.removed t).recency :=
      haside.recency.trans hrecency
    have hcontents' : s.cache.workFired.contents = (s.cache.removed t).contents :=
      haside.contents.trans hcontents
    refine ⟨hcoherent, ?_, ?_⟩
    · change s.cache.workFired.recency.capacity = s.cache.workFired.options.capacity
      rw [hrecency', haside.options, hoptions]
      exact hgrows.capacity.trans h.capacity
    · intro hfits
      change s.cache.workFired.recency.Fitting at hfits
      rw [hrecency'] at hfits
      obtain ⟨order, hkeeps⟩ := h.keeps (hgrows.fitting hfits)
      obtain ⟨order', hremoved, _⟩ := (hkeeps.remove t).1
      change ∃ order, s.cache.workFired.recency.Keeps s.cache.workFired.contents order
      rw [hrecency', hcontents']
      exact ⟨order', hremoved⟩

theorem nodesKept_of_caller (s : System V) {move : Move V} (hcaller : move.ofWorker = false) :
    Contents.NodesKept s.cache.contents (s.step move).cache.contents := by
  cases move with
  | store key value ttl wait => exact s.cache.lodge_nodesKept key value ttl wait
  | strandSet key value ttl =>
    rw [step_strandSet]
    exact s.cache.written_nodesKept key value ttl
  | strandDelete key =>
    rw [step_strandDelete]
    exact .of_eq fun t => Contents.entry?_takeKey _ key t
  | detach key =>
    rw [step_detach]
    exact .of_eq fun t => Contents.entry?_takeKey _ key t
  | workWrite | workRead | workFired => cases hcaller
  | _ =>
    rw [(s.step_of_distant rfl).1]
    exact .of_eq fun _ => rfl

theorem Arranged.step (h : s.Arranged) (move : Move V) : (s.step move).Arranged := by
  cases hcaller : move.ofWorker with
  | false =>
    exact h.of_same_list (h.coherent.step move) (s.step_options move) (s.recency_of_caller hcaller)
      (s.nodesKept_of_caller hcaller)
  | true =>
    cases move with
    | workWrite => exact h.workWrite
    | workRead => exact h.workRead
    | workFired => exact h.workFired
    | _ => cases hcaller

theorem Arranged.run (h : s.Arranged) (moves : List (Move V)) : (s.run moves).Arranged :=
  run_preserves (fun _ move hs => hs.step move) h moves

/-- The arena does not shrink, and a worker that has stopped stays so. -/
theorem step_onward (s : System V) (move : Move V) :
    Recency.Grows s.cache.recency (s.step move).cache.recency ∧
      ((s.step move).cache.isClosed = false → s.cache.isClosed = false) := by
  cases hcaller : move.ofWorker with
  | false =>
    rw [s.recency_of_caller hcaller]
    exact ⟨.refl _, fun halive => (alive_of_caller hcaller halive).1⟩
  | true =>
    cases move with
    | workWrite =>
      exact ⟨s.cache.later_workWrite.grows, s.cache.later_workWrite.alive⟩
    | workRead =>
      exact ⟨s.cache.later_workRead.grows, s.cache.later_workRead.alive⟩
    | workFired =>
      exact ⟨s.cache.later_workFired.grows, s.cache.later_workFired.alive⟩
    | _ => cases hcaller

theorem run_onward (s : System V) (moves : List (Move V)) :
    Recency.Grows s.cache.recency (s.run moves).cache.recency ∧
      ((s.run moves).cache.isClosed = false → s.cache.isClosed = false) := by
  induction moves generalizing s with
  | nil => exact ⟨.refl _, id⟩
  | cons move rest ih =>
    obtain ⟨hgrows, halive⟩ := s.step_onward move
    obtain ⟨hgrows', halive'⟩ := ih (s.step move)
    exact ⟨hgrows.trans hgrows', fun h => halive (halive' h)⟩

/-! ## Entries without a place in the list -/

variable {stranded : List Serial}

theorem Covered.workWrite (hc : s.Covered stranded) (h : s.Arranged) :
    (s.step .workWrite).Covered stranded := by
  intro hfits halive key t ht
  obtain ⟨hslot, hlisted⟩ := h.listed_workWrite hfits ht
  obtain ⟨hgrows, hopen⟩ := s.step_onward .workWrite
  have hitems : (s.step .workWrite).cache.writes.items = s.cache.writes.items.tail :=
    writes_of_worker rfl halive
  rw [hitems]
  rcases hc (hgrows.fitting hfits) (hopen halive) key t hslot with hin | hin | hin
  · exact Or.inl (hlisted (Or.inl hin))
  · cases hqueue : s.cache.writes.items with
    | nil =>
      rw [hqueue] at hin
      cases hin
    | cons op rest =>
      rw [hqueue] at hin hlisted
      rcases List.mem_cons.mp hin with heq | hin
      · exact Or.inl (hlisted (Or.inr (congrArg some heq.symm)))
      · exact Or.inr (Or.inl hin)
  · exact Or.inr (Or.inr hin)

theorem Covered.workRead (hc : s.Covered stranded) (h : s.Arranged) :
    (s.step .workRead).Covered stranded := by
  intro hfits halive key t ht
  have hlisted : t ∈ s.cache.recency.toList → t ∈ s.cache.workRead.recency.toList :=
    h.listed_workRead hfits
  obtain ⟨hgrows, hopen⟩ := s.step_onward .workRead
  have hitems : (s.step .workRead).cache.writes.items = s.cache.writes.items :=
    writes_of_worker rfl halive
  obtain ⟨reads, places, heq⟩ := s.cache.workRead_frame
  have hslot : s.cache.contents.occupant? key = some t := by
    change s.cache.workRead.contents.occupant? key = some t at ht
    rwa [heq] at ht
  rw [hitems]
  exact (hc (hgrows.fitting hfits) (hopen halive) key t hslot).imp_left hlisted

theorem Covered.workFired (hc : s.Covered stranded) (h : s.Arranged) :
    (s.step .workFired).Covered stranded := by
  intro hfits halive key t ht
  have hlisted : t ∈ s.cache.recency.toList → t ∈ s.cache.workFired.recency.toList :=
    h.listed_workFired hfits ht
  obtain ⟨hgrows, hopen⟩ := s.step_onward .workFired
  have hitems : (s.step .workFired).cache.writes.items = s.cache.writes.items :=
    writes_of_worker rfl halive
  obtain ⟨base, haside, _, _, hbase⟩ := s.cache.workFired_aside
  have hslot : s.cache.contents.occupant? key = some t := by
    change s.cache.workFired.contents.occupant? key = some t at ht
    rw [haside.contents] at ht
    rcases hbase with ⟨hcontents, _⟩ | ⟨_, _, _, u, _, _, hcontents, _⟩ <;> rw [hcontents] at ht
    · exact ht
    · exact (((Recency.remove_vacated h.coherent.keyed _ u).occupant_iff key t).mp ht).1
  rw [hitems]
  exact (hc (hgrows.fitting hfits) (hopen halive) key t hslot).imp_left hlisted

/-- A caller leaves an entry in a slot that was vacant only if its insertion is queued or the entry
is stranded. -/
theorem Coherent.occupant_of_caller (h : s.Coherent) {move : Move V}
    (hcaller : move.ofWorker = false) {key : String} {t : Serial}
    (ht : (s.step move).cache.contents.occupant? key = some t) :
    s.cache.contents.occupant? key = some t ∨ .set t ∈ (s.step move).cache.writes.items ∨
      t ∈ (s.stranded? move).toList := by
  have hold {taken : String} (ht : (s.cache.contents.takeKey taken).2.occupant? key = some t) :
      s.cache.contents.occupant? key = some t := by
    rw [Contents.occupant?_takeKey] at ht
    split at ht
    · cases ht
    · exact ht
  cases move with
  | store other value ttl wait =>
    exact (Cache.lodge_occupant h.keyed other value ttl wait ht).imp_right Or.inl
  | strandSet other value ttl =>
    rw [step_strandSet] at ht
    replace ht := (s.cache.occupant?_written other value ttl key).symm.trans ht
    split at ht
    · rename_i heq
      subst heq
      cases hs : s.cache.contents.occupant? other with
      | some u =>
        rw [hs] at ht
        exact Or.inl ht
      | none =>
        rw [hs] at ht
        right
        right
        unfold stranded?
        dsimp only
        rw [if_pos hs, Option.mem_toList]
        exact ht
    · exact Or.inl ht
  | strandDelete other =>
    rw [step_strandDelete] at ht
    exact Or.inl (hold ht)
  | detach other =>
    rw [step_detach] at ht
    exact Or.inl (hold ht)
  | workWrite | workRead | workFired => cases hcaller
  | _ =>
    rw [(s.step_of_distant rfl).1] at ht
    exact Or.inl ht

theorem Covered.step (hc : s.Covered stranded) (h : s.Arranged) (move : Move V) :
    (s.step move).Covered (stranded ++ (s.stranded? move).toList) := by
  cases hcaller : move.ofWorker with
  | false =>
    refine hc.of_same_list (s.recency_of_caller hcaller)
      (fun halive => (alive_of_caller hcaller halive).1) ?_ ?_
    · exact fun _ key t ht => h.coherent.occupant_of_caller hcaller ht
    · intro halive
      obtain ⟨more, hitems⟩ := (alive_of_caller hcaller halive).2
      rw [hitems]
      exact List.subset_append_left _ _
  | true =>
    cases move with
    | workWrite => exact (List.append_nil stranded).symm ▸ hc.workWrite h
    | workRead => exact (List.append_nil stranded).symm ▸ hc.workRead h
    | workFired => exact (List.append_nil stranded).symm ▸ hc.workFired h
    | _ => cases hcaller

theorem Covered.run (hc : s.Covered stranded) (h : s.Arranged) (moves : List (Move V)) :
    (s.run moves).Covered (stranded ++ s.along stranded? moves) := by
  refine (run_preserves_along (P := fun stranded s => s.Arranged ∧ s.Covered stranded) ?_ ⟨h, hc⟩
    moves).2
  exact fun _ _ move hs => ⟨hs.1.step move, hs.2.step hs.1 move⟩

variable {options : Options V} {clock : Clock} {c : Cache V}

theorem capacity_run (hc : Cache.create options clock = .ok c) (moves : List (Move V)) :
    (({ cache := c } : System V).run moves).cache.recency.capacity = options.capacity := by
  rw [((arranged_create hc).run moves).capacity, run_options, Cache.options_create hc]

/-- While the worker lives, an entry with a slot is linked, its insertion is queued, or its caller
has failed for want of a deadline; and the list is within the capacity. So the entries exceed the
capacity by the queued insertions and the stranded entries at most. The index of a handle bounds
the arena: a list of more places than it can name is left out. -/
theorem size_le_capacity_add_queued (hc : Cache.create options clock = .ok c)
    (moves : List (Move V)) :
    let start : System V := { cache := c }
    let s := start.run moves
    let stranded := start.along stranded? moves
    s.cache.isClosed = false → 0 < options.capacity →
    options.capacity < Recency.maxPlaces ∨ s.cache.recency.nodes.size < Recency.maxPlaces →
    (∀ key t, s.cache.contents.occupant? key = some t →
      t ∈ s.cache.recency.toList ∨ .set t ∈ s.cache.writes.items ∨ t ∈ stranded) ∧
    s.cache.recency.toList.length ≤ options.capacity ∧
    s.cache.size ≤ options.capacity + s.cache.queuedSets.length + stranded.length ∧
    (s.cache.writes.items = [] → stranded = [] → s.cache.size ≤ options.capacity) := by
  intro start s stranded halive hpos hfits
  have harranged := (arranged_create hc).run moves
  have hcapacity : s.cache.recency.capacity = options.capacity := capacity_run hc moves
  have hfitting : s.cache.recency.Fitting := by
    unfold Recency.Fitting
    omega
  have hcovers := (covered_create hc).run (arranged_create hc) moves hfitting halive
  rw [List.nil_append] at hcovers
  obtain ⟨order, hkeeps⟩ := harranged.keeps hfitting
  have hlength : s.cache.recency.toList.length ≤ options.capacity := by
    have hbound := hkeeps.length_le_capacity
    rw [show s.cache.recency.toList = _ from hkeeps.toList_eq, List.length_map]
    change s.cache.recency.capacity = 0 ∨ order.length ≤ s.cache.recency.capacity at hbound
    omega
  have hsize : s.cache.size ≤
      (s.cache.recency.toList ++ (s.cache.queuedSets ++ stranded)).length := by
    apply harranged.coherent.keyed.size_le
    intro key t ht
    rw [List.mem_append, List.mem_append, Cache.mem_queuedSets]
    exact hcovers key t ht
  rw [List.length_append, List.length_append] at hsize
  refine ⟨hcovers, hlength, by omega, ?_⟩
  intro hidle hnone
  have hqueued : s.cache.queuedSets = [] := by
    unfold Cache.queuedSets
    rw [hidle]
    rfl
  rw [hqueued, hnone, List.length_nil] at hsize
  omega

/-- A value of which the worker is never told and one of which it has yet to be told, in a cache of
one entry. -/
theorem size_le_capacity_add_queued_lagging :
    ∃ c : Cache Nat, Cache.create { capacity := 1 } { unix := 0 } = .ok c ∧
      let start : System Nat := { cache := c }
      let moves := [.strandSet "a" 1 .zero, .store "b" 2 .zero false]
      (start.run moves).cache.recency.toList = [] ∧ (start.run moves).cache.queuedSets = [1] ∧
        start.along stranded? moves = [0] ∧ (start.run moves).cache.size = 2 ∧
        (start.run moves).cache.size ≤
          1 + (start.run moves).cache.queuedSets.length + (start.along stranded? moves).length := by
  let options : Options Nat := { capacity := 1 }
  have hshards : options.shards ≤ Store.maxShards := by decide
  obtain ⟨c, hc⟩ := Cache.exists_create hshards { unix := 0 }
  refine ⟨c, hc, ?_⟩
  intro start moves
  let stranded : Cache Nat :=
    { c with contents := (c.created "a" 1 .zero).place c.nextSerial }
  have hkeyed := (coherent_create hc).keyed
  have hkeyed' : stranded.contents.WellKeyed :=
    (hkeyed.create "a" 1 (c.clock.stampAfter .zero)).place c.nextSerial
  have hvacant : stranded.contents.occupant? "b" = none := by
    refine (Contents.occupant?_place_create c.contents "a" 1 _ "b").trans ?_
    rw [if_neg (by decide), Cache.vacant_create hc "b"]
  have hsize : stranded.size = 1 := by
    refine (hkeyed.size_place_create (Cache.vacant_create hc "a") 1 _).trans ?_
    exact congrArg (· + 1) (Cache.size_create hc)
  have hfirst : c.nextSerial = 0 := Cache.nextSerial_create hc
  have hsecond : stranded.nextSerial = 1 := by
    refine Eq.trans ?_ (congrArg (· + 1) hfirst)
    exact (congrArg Array.size (Contents.entries_place _ _)).trans
      (Contents.size_entries_create c.contents "a" 1 (c.clock.stampAfter .zero))
  have halong : start.along stranded? moves = [0] := by
    unfold along stranded?
    dsimp only
    rw [if_pos (Cache.vacant_create hc "a"), show start.cache.nextSerial = 0 from hfirst]
    rfl
  have hstranded : start.step (.strandSet "a" 1 .zero) = { cache := stranded } := by
    rw [step_strandSet, Cache.written_of_vacant (Cache.vacant_create hc "a")]
  obtain ⟨_, _, hcreated⟩ := Cache.create_eq_ok hc
  have haccepts : stranded.accepts false = true := by
    change c.accepts false = true
    rw [hcreated]
    rfl
  let last : Cache Nat :=
    ({ stranded with contents := (stranded.created "b" 2 .zero).place stranded.nextSerial } :
      Cache Nat).queued (.set stranded.nextSerial)
  have hrun : start.run moves = { cache := last } := by
    rw [run_cons, hstranded]
    change ({ cache := (stranded.lodge "b" 2 .zero false).2 } : System Nat) = _
    rw [Cache.lodge_of_vacant hvacant, if_pos haccepts]
  have halive : (start.run moves).cache.isClosed = false := by
    rw [hrun]
    change c.writes.closed = false
    rw [hcreated]
  have hlisted : last.recency.toList = [] := by
    change c.recency.toList = []
    rw [hcreated]
    rfl
  have hqueued : last.queuedSets = [1] := by
    change (c.writes.items ++ [WriteOp.set stranded.nextSerial]).filterMap _ = [1]
    rw [hsecond, hcreated]
    rfl
  have hbound := (size_le_capacity_add_queued hc moves halive (by decide : 0 < options.capacity)
    (Or.inl (by decide))).2.2.1
  rw [hrun]
  refine ⟨hlisted, hqueued, halong, ?_, hrun ▸ hbound⟩
  refine (hkeyed'.size_place_create hvacant 2 _).trans ?_
  exact congrArg (· + 1) hsize

end System

end TimedCache
