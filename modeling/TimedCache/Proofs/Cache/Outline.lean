import Mathlib.Logic.Function.Basic
import TimedCache.Proofs.Cache.Writers

/-!
The outline of a cache: which entry is in which slot, the list, and what is queued. While the
worker lives, each deed is a step of this small machine, which knows nothing of values, arenas,
timers and clocks.
-/

namespace TimedCache

/-- The entry that an operation links or moves to the front. -/
def WriteOp.upserted? : WriteOp → Option Serial
  | .set s => some s
  | .update s => some s
  | _ => none

structure Outline where
  slot : String → Option Serial
  keyOf : Serial → Option String
  listed : List Serial
  ops : List WriteOp

namespace Outline

/-- Whose turn it is, and whether a deletion was taken. -/
inductive Act where
  | store (key : String)
  | discard (key : String) (taken : Bool)
  | work
  | fall (s : Serial)
  | rest

def occupies (o : Outline) (s : Serial) : Bool :=
  match o.keyOf s with
  | some key => o.slot key == some s
  | none => false

/-- The slots when one entry has lost its own. -/
def without (o : Outline) (gone : Option Serial) : String → Option Serial := fun key =>
  if o.slot key = gone then none else o.slot key

/-- The entry that a turn leaves listed without a slot and without a deletion. -/
def strayed? (o : Outline) : Act → Option Serial
  | .discard key false => o.slot key
  | _ => none

inductive Step (capacity : Nat) : Outline → Act → Outline → Prop where
  | idle {o : Outline} {act : Act} (hact : o.strayed? act = none)
      (hwork : act = .work → o.ops = []) : Step capacity o act o
  /-- A new entry was refused. -/
  | refuse {o : Outline} {key : String} {s : Serial} (hvacant : o.slot key = none)
      (hnew : ∀ t, o.keyOf t ≠ none → t < s) :
      Step capacity o (.store key) { o with keyOf := Function.update o.keyOf s (some key) }
  | enter {o : Outline} {key : String} {s : Serial} (hvacant : o.slot key = none)
      (hnew : ∀ t, o.keyOf t ≠ none → t < s) :
      Step capacity o (.store key)
        { o with
          slot := Function.update o.slot key (some s)
          keyOf := Function.update o.keyOf s (some key)
          ops := o.ops ++ [.set s] }
  | renew {o : Outline} {key : String} {s : Serial} (hslot : o.slot key = some s) :
      Step capacity o (.store key) { o with ops := o.ops ++ [.update s] }
  | leave {o : Outline} {key : String} {s : Serial} (hslot : o.slot key = some s) :
      Step capacity o (.discard key true)
        { o with slot := Function.update o.slot key none, ops := o.ops ++ [.delete s] }
  /-- The deletion of an entry was refused, so that the entry stays listed. -/
  | stray {o : Outline} {key : String} {s : Serial} (hslot : o.slot key = some s) :
      Step capacity o (.discard key false) { o with slot := Function.update o.slot key none }
  | link {o : Outline} {op : WriteOp} {s : Serial} {rest : List WriteOp}
      (hops : o.ops = op :: rest) (hop : op.upserted? = some s) :
      Step capacity o .work
        { o with
          slot := o.without (Recency.victim? capacity o.listed s o.occupies)
          listed := Recency.refreshed capacity o.listed s (o.occupies s)
          ops := rest }
  | bury {o : Outline} {s : Serial} {rest : List WriteOp} (hops : o.ops = .delete s :: rest) :
      Step capacity o .work
        { o with slot := o.without (some s), listed := o.listed.erase s, ops := rest }
  | wipe {o : Outline} {rest : List WriteOp} (hops : o.ops = .clear :: rest) :
      Step capacity o .work { o with slot := fun _ => none, listed := [], ops := rest }
  | skip {o : Outline} {rest : List WriteOp} (hops : o.ops = .flush :: rest) :
      Step capacity o .work { o with ops := rest }
  | fall {o : Outline} {s : Serial} :
      Step capacity o (.fall s) { o with slot := o.without (some s), listed := o.listed.erase s }

end Outline

namespace Contents

variable {V : Type}

def keyOf (c : Contents V) (s : Serial) : Option String := (c.entry? s).map (·.key)

theorem keyOf_of_entry {c : Contents V} {s : Serial} {e : Entry V} (h : c.entry? s = some e) :
    c.keyOf s = some e.key := by
  unfold keyOf
  rw [h]
  rfl

theorem WellKeyed.keyOf_of_occupant {c : Contents V} (h : c.WellKeyed) {key : String} {s : Serial}
    (hs : c.occupant? key = some s) : c.keyOf s = some key := by
  obtain ⟨e, he, rfl⟩ := h.keyed key s hs
  exact keyOf_of_entry he

theorem keyOf_eq_shown (c : Contents V) (s : Serial) : c.keyOf s = (c.shown? s).map (·.1) := by
  unfold keyOf shown?
  rw [Option.map_map]
  rfl

theorem Vacated.keyOf_eq {c c' : Contents V} {gone : Option Serial} (h : Vacated c c' gone) :
    c'.keyOf = c.keyOf := by
  funext s
  rw [keyOf_eq_shown, keyOf_eq_shown, h.shown]

theorem Vacated.occupant_without {c c' : Contents V} {gone : Option Serial}
    (h : Vacated c c' gone) (key : String) :
    c'.occupant? key = if c.occupant? key = gone then none else c.occupant? key := by
  apply Option.ext
  intro s
  rw [h.occupant_iff]
  split
  · rename_i heq
    rw [heq]
    simp
  · rename_i hne
    constructor
    · exact fun hs => hs.1
    · intro hs
      refine ⟨hs, ?_⟩
      rintro rfl
      exact hne hs

end Contents

namespace Cache

variable {V : Type} {c : Cache V}

def outline (c : Cache V) : Outline where
  slot := c.contents.occupant?
  keyOf := c.contents.keyOf
  listed := c.recency.toList
  ops := c.writes.items

theorem occupies_outline (c : Cache V) : c.outline.occupies = c.contents.occupies := by
  funext s
  have hkey : c.outline.keyOf s = (c.contents.entry? s).map (·.key) := rfl
  unfold Outline.occupies Contents.occupies
  rw [hkey]
  cases c.contents.entry? s <;> rfl

/-- Whose turn a deed is. -/
def turn (c : Cache V) : Deed V → Outline.Act
  | .store key _ _ _ => .store key
  | .discard key => .discard key (c.discard key).1
  | .workWrite => .work
  | .workFired =>
    match c.fired with
    | (id, key) :: _ => (c.fallen? id key).elim .rest .fall
    | [] => .rest
  | _ => .rest

theorem keyOf_made {s : Serial} (h : c.contents.keyOf s ≠ none) : s < c.nextSerial := by
  unfold Contents.keyOf at h
  cases he : c.contents.entry? s with
  | none =>
    rw [he] at h
    exact absurd rfl h
  | some e => exact Contents.lt_size_of_made he

theorem keyOf_created (c : Cache V) (key : String) (value : V) (ttl : Span) :
    (c.created key value ttl).keyOf = Function.update c.contents.keyOf c.nextSerial (some key) := by
  funext s
  unfold Contents.keyOf created
  rw [Contents.entry?_create]
  rcases eq_or_ne s c.nextSerial with rfl | hne
  · rw [Function.update_self]
    exact congrArg (Option.map _) (if_pos rfl)
  · rw [Function.update_of_ne hne]
    exact congrArg (Option.map _) (if_neg hne)

theorem keyOf_overwritten (c : Cache V) (s : Serial) (value : V) (ttl : Span) :
    (c.overwritten s value ttl).keyOf = c.contents.keyOf := by
  funext t
  unfold Contents.keyOf overwritten
  rw [Contents.entry?_modify]
  split
  · cases c.contents.entry? t <;> rfl
  · rfl

theorem keyOf_placed (c : Cache V) (key : String) (value : V) (ttl : Span) :
    ((c.created key value ttl).place c.nextSerial).keyOf =
      Function.update c.contents.keyOf c.nextSerial (some key) := by
  rw [← c.keyOf_created key value ttl]
  funext t
  unfold Contents.keyOf
  rw [Contents.entry?_place]

theorem keyOf_written {t : Serial} {name : String} (h : c.contents.keyOf t = some name)
    (key : String) (value : V) (ttl : Span) : (c.written key value ttl).keyOf t = some name := by
  cases hs : c.contents.occupant? key with
  | some s => rw [written_of_occupant hs, keyOf_overwritten, h]
  | none =>
    have hmade : t < c.nextSerial := keyOf_made (by simp [h])
    rw [written_of_vacant hs, keyOf_placed, Function.update_of_ne (Nat.ne_of_lt hmade), h]

theorem outline_ext {o : Outline} (hslot : ∀ key, c.contents.occupant? key = o.slot key)
    (hkeyOf : c.contents.keyOf = o.keyOf) (hlisted : c.recency.toList = o.listed)
    (hops : c.writes.items = o.ops) : c.outline = o := by
  obtain ⟨slot, keyOf, listed, ops⟩ := o
  unfold outline
  rw [hkeyOf, hlisted, hops]
  exact congrArg (Outline.mk · keyOf listed ops) (funext hslot)

theorem lodge_step (h : c.contents.WellKeyed) (capacity : Nat) (key : String) (value : V)
    (ttl : Span) (wait : Bool) :
    Outline.Step capacity c.outline (.store key) (c.lodge key value ttl wait).2.outline := by
  have hnew (t : Serial) (ht : c.outline.keyOf t ≠ none) : t < c.nextSerial := keyOf_made ht
  cases hs : c.contents.occupant? key with
  | some s =>
    rw [lodge_of_occupant hs]
    have hkeyOf := c.keyOf_overwritten s value ttl
    cases c.accepts wait with
    | true =>
      have houtline : (({ c with contents := c.overwritten s value ttl } : Cache V).queued
          (.update s)).outline = { c.outline with ops := c.outline.ops ++ [.update s] } :=
        outline_ext (fun _ => rfl) hkeyOf rfl rfl
      exact houtline ▸ .renew hs
    | false =>
      have houtline : ({ c with
          contents := c.overwritten s value ttl
          counters := c.counters.rejectedWrite } : Cache V).outline = c.outline :=
        outline_ext (fun _ => rfl) hkeyOf rfl rfl
      exact houtline ▸ .idle rfl nofun
  | none =>
    rw [lodge_of_vacant hs]
    have hslots := Contents.occupant?_place_create c.contents key value (c.clock.stampAfter ttl)
    have hplaced := c.keyOf_placed key value ttl
    have hslot (other : String) :
        ((c.created key value ttl).place c.nextSerial).occupant? other =
          Function.update c.contents.occupant? key (some c.nextSerial) other := by
      refine (hslots other).trans ?_
      rcases eq_or_ne other key with rfl | hne
      · rw [Function.update_self, if_pos rfl]
        rfl
      · rw [Function.update_of_ne hne, if_neg hne.symm]
    cases c.accepts wait with
    | true =>
      have houtline : (({ c with
          contents := (c.created key value ttl).place c.nextSerial } : Cache V).queued
            (.set c.nextSerial)).outline =
          { c.outline with
            slot := Function.update c.outline.slot key (some c.nextSerial)
            keyOf := Function.update c.outline.keyOf c.nextSerial (some key)
            ops := c.outline.ops ++ [.set c.nextSerial] } :=
        outline_ext hslot hplaced rfl rfl
      exact houtline ▸ .enter hs hnew
    | false =>
      have hkeyed := (h.create key value (c.clock.stampAfter ttl)).place c.nextSerial
      have hvacated := hkeyed.vacated_vacate c.nextSerial
      have hback (other : String) : Contents.occupant?
          (((c.created key value ttl).place c.nextSerial).vacate c.nextSerial).2 other =
            c.contents.occupant? other := by
        refine (hvacated.occupant_without other).trans ?_
        rw [show ((c.contents.create key value (c.clock.stampAfter ttl)).2.place
          c.nextSerial).occupant? other = _ from hslot other]
        rcases eq_or_ne other key with rfl | hne
        · rw [Function.update_self, if_pos rfl, hs]
        · rw [Function.update_of_ne hne, if_neg]
          intro hlast
          exact Nat.lt_irrefl _ (h.occupant_lt hlast)
      have houtline : ({ c with
          contents := (((c.created key value ttl).place c.nextSerial).vacate c.nextSerial).2
          counters := c.counters.rejectedWrite } : Cache V).outline =
          { c.outline with keyOf := Function.update c.outline.keyOf c.nextSerial (some key) } :=
        outline_ext hback (hvacated.keyOf_eq.trans hplaced) rfl rfl
      exact houtline ▸ .refuse hs hnew

theorem discard_step (c : Cache V) (capacity : Nat) (key : String) :
    Outline.Step capacity c.outline (.discard key (c.discard key).1)
      (c.discard key).2.outline := by
  have hslot (other : String) : (c.vacated key).contents.occupant? other =
      Function.update c.contents.occupant? key none other := by
    refine (Contents.occupant?_takeKey c.contents key other).trans ?_
    rcases eq_or_ne other key with rfl | hne
    · rw [Function.update_self, if_pos rfl]
    · rw [Function.update_of_ne hne, if_neg hne.symm]
  have hkeyOf : (c.vacated key).contents.keyOf = c.contents.keyOf := by
    funext t
    unfold Contents.keyOf vacated
    rw [Contents.entry?_takeKey]
  cases hs : c.contents.occupant? key with
  | none =>
    rw [discard_of_vacant hs]
    have houtline : (c.vacated key).outline = c.outline := by
      refine outline_ext (fun other => (hslot other).trans ?_) hkeyOf rfl rfl
      rw [← hs, Function.update_eq_self]
      rfl
    exact houtline ▸ .idle rfl nofun
  | some s =>
    rw [discard_of_occupant hs]
    rcases (c.vacated key).handOver_eq s with heq | ⟨counters, heq⟩ <;> rw [heq]
    · have houtline : ((c.vacated key).queued (.delete s)).outline =
          { c.outline with
            slot := Function.update c.outline.slot key none
            ops := c.outline.ops ++ [.delete s] } := outline_ext hslot hkeyOf rfl rfl
      exact houtline ▸ .leave hs
    · have houtline : ({ c.vacated key with counters } : Cache V).outline =
          { c.outline with slot := Function.update c.outline.slot key none } :=
        outline_ext hslot hkeyOf rfl rfl
      exact houtline ▸ .stray hs

theorem outline_of_aside {base c' : Cache V} (h : Aside base c') (halive : c'.isClosed = false) :
    c'.outline = base.outline := by
  have hwrites := (h.queues_of_alive halive).1
  unfold outline
  rw [h.contents, h.recency, hwrites]

theorem removed_outline {order : List Recency.Spot} (h : c.recency.Keeps c.contents order)
    (hkeyed : c.contents.WellKeyed) (s : Serial) :
    (c.removed s).outline =
      { c.outline with
        slot := c.outline.without (some s), listed := c.outline.listed.erase s } := by
  have hvacated := Recency.remove_vacated hkeyed c.recency s
  exact outline_ext hvacated.occupant_without hvacated.keyOf_eq (h.remove s).2.1 rfl

theorem added_outline {order : List Recency.Spot} (h : c.recency.Keeps c.contents order)
    (hkeyed : c.contents.WellKeyed) {s : Serial} (hfits : (c.added s).recency.Fitting) :
    (c.added s).outline =
      { c.outline with
        slot := c.outline.without
          (Recency.victim? c.recency.capacity c.outline.listed s c.outline.occupies)
        listed :=
          Recency.refreshed c.recency.capacity c.outline.listed s (c.outline.occupies s) } := by
  obtain ⟨_, hlist, hvictim⟩ := h.add hkeyed s hfits
  have hvacated := (Recency.add_vacated hkeyed c.recency s).1
  rw [hvictim] at hvacated
  rw [occupies_outline]
  exact outline_ext hvacated.occupant_without hvacated.keyOf_eq hlist rfl

theorem workWrite_step {order : List Recency.Spot} (h : c.recency.Keeps c.contents order)
    (hkeyed : c.contents.WellKeyed) (hfits : c.workWrite.recency.Fitting)
    (halive : c.workWrite.isClosed = false) :
    Outline.Step c.recency.capacity c.outline .work c.workWrite.outline := by
  cases hitems : c.writes.items with
  | nil =>
    rw [workWrite_of_nil hitems]
    exact .idle rfl fun _ => hitems
  | cons op rest =>
    obtain ⟨haside, _, _⟩ := workWrite_aside hitems
    rw [haside.recency] at hfits
    rw [outline_of_aside haside halive]
    have hops : c.outline.ops = op :: rest := hitems
    cases op with
    | set s =>
      have houtline := added_outline (c := c.received rest) h hkeyed hfits
      exact houtline ▸ .link hops rfl
    | update s =>
      have houtline := added_outline (c := c.received rest) h hkeyed hfits
      exact houtline ▸ .link hops rfl
    | delete s =>
      have houtline := removed_outline (c := c.received rest) h hkeyed s
      exact houtline ▸ .bury hops
    | clear =>
      have hkept := (Recency.clear_vacated hkeyed c.recency).keyOf_eq
      have houtline : ((c.received rest).drawn .clear).outline =
          { c.outline with slot := fun _ => none, listed := [], ops := rest } := by
        refine outline_ext ?_ ?_ ?_ rfl
        · exact fun key => Contents.occupant?_clearSlots _ key
        · rw [← show (c.recency.clear c.contents).2.keyOf = c.outline.keyOf from hkept]
          funext t
          exact congrArg (Option.map _) (Contents.entry?_clearSlots _ t)
        · exact h.clear.toList_eq
      exact houtline ▸ .wipe hops
    | flush => exact .skip hops

theorem workFired_step {order : List Recency.Spot} (h : c.recency.Keeps c.contents order)
    (hkeyed : c.contents.WellKeyed) (halive : c.workFired.isClosed = false) :
    Outline.Step c.recency.capacity c.outline (c.turn .workFired) c.workFired.outline := by
  unfold turn
  cases hfired : c.fired with
  | nil =>
    rw [workFired_of_nil hfired]
    exact .idle rfl nofun
  | cons task rest =>
    obtain ⟨id, key⟩ := task
    rw [workFired_of_cons hfired] at halive ⊢
    have hfallen : ({ c with fired := rest } : Cache V).fallen? id key = c.fallen? id key := rfl
    have haside := ({ c with fired := rest } : Cache V).expire_aside id key
    rw [hfallen] at haside
    dsimp only at halive ⊢
    rw [outline_of_aside haside halive]
    cases c.fallen? id key with
    | none => exact .idle rfl nofun
    | some s =>
      have houtline := removed_outline (c := { c with fired := rest }) h hkeyed s
      exact houtline ▸ .fall

/-- A deed of callers and worker is a step of the outline, as long as the worker lives and no reads
are noted. -/
theorem act_step (h : ({ cache := c } : System V).Arranged) (hreads : c.reads.sink.items = [])
    (deed : Deed V) (hfits : (c.act deed).recency.Fitting)
    (hbefore : c.recency.Fitting) (halive : (c.act deed).isClosed = false) :
    Outline.Step c.options.capacity c.outline (c.turn deed) (c.act deed).outline := by
  obtain ⟨order, hkeeps⟩ := h.keeps hbefore
  have hkeyed := h.coherent.keyed
  have hcapacity : c.recency.capacity = c.options.capacity := h.capacity
  cases deed with
  | store key value ttl wait => exact lodge_step hkeyed _ key value ttl wait
  | discard key => exact c.discard_step _ key
  | advance | pace | pause | unpause => exact .idle rfl nofun
  | workWrite =>
    rw [← hcapacity]
    exact workWrite_step hkeeps hkeyed hfits halive
  | workRead =>
    have hidle : c.workRead = c := by
      unfold workRead ReadTracker.receive? Queue.receive?
      rw [hreads]
      rfl
    change Outline.Step _ _ .rest c.workRead.outline
    rw [hidle]
    exact .idle rfl nofun
  | workFired =>
    rw [← hcapacity]
    exact workFired_step hkeeps hkeyed halive

end Cache

end TimedCache
