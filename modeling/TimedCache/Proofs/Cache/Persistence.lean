import TimedCache.Proofs.Cache.Retention

/-!
How long an accepted write lasts among callers who only write. It lasts until as many other keys
have been stored as the list has room for, provided that its key still has a slot when the worker
comes to it: an insertion queued before an overwriting may evict the entry that was overwritten.
-/

namespace TimedCache

namespace Deed

variable {V : Type}

def stored? : Deed V → Option String
  | .store key _ _ _ => some key
  | _ => none

/-- The key that a caller stores or deletes. -/
def written? : Deed V → Option String
  | .store key _ _ _ => some key
  | .discard key => some key
  | _ => none

end Deed

namespace Cache

variable {V : Type} {c : Cache V} {key : String} {s : Serial}

/-- The entry that a refused deletion leaves listed without a slot. -/
def refused? (c : Cache V) : Deed V → Option Serial
  | .discard key => if (c.discard key).1 then none else c.contents.occupant? key
  | _ => none

def refusals (c : Cache V) : List (Deed V) → List Serial
  | [] => []
  | deed :: rest => (c.refused? deed).toList ++ (c.act deed).refusals rest

/-- The next operation is the last one queued for the entry under a key. -/
def Due (c : Cache V) (key : String) : Prop :=
  ∃ s, c.contents.occupant? key = some s ∧ c.outline.Due s

theorem turn_workFired (c : Cache V) : c.turn .workFired = .rest ∨
    ∃ id key s, c.fallen? id key = some s ∧ c.turn .workFired = .fall s := by
  unfold turn
  cases c.fired with
  | nil => exact Or.inl rfl
  | cons task rest =>
    obtain ⟨id, key⟩ := task
    dsimp only
    cases hs : c.fallen? id key with
    | none => exact Or.inl rfl
    | some s => exact Or.inr ⟨id, key, s, hs, rfl⟩

theorem turn_eq_work {deed : Deed V} (h : c.turn deed = .work) : deed = .workWrite := by
  cases deed with
  | workWrite => rfl
  | workFired =>
    rcases c.turn_workFired with heq | ⟨_, _, _, _, heq⟩ <;> rw [heq] at h <;> cases h
  | _ => cases h

theorem strayed?_turn (c : Cache V) (deed : Deed V) :
    c.outline.strayed? (c.turn deed) = c.refused? deed := by
  cases deed with
  | discard key =>
    unfold turn refused?
    dsimp only
    cases (c.discard key).1 <;> rfl
  | workFired => rcases c.turn_workFired with heq | ⟨_, _, _, _, heq⟩ <;> rw [heq] <;> rfl
  | _ => rfl

/-- A run that leaves a key alone and ends before its stamp, with the worker alive. The keys that it
stores are among some others, and the entries that it makes stray are on record. -/
structure Undisturbed (c : Cache V) (deeds : List (Deed V)) (key : String) (stamp : Option Nat)
    (others : Finset String) (gone : List Serial) : Prop where
  written : ∀ deed ∈ deeds, deed.written? ≠ some key
  stored : ∀ deed ∈ deeds, ∀ other, deed.stored? = some other → other ∈ others
  excluded : key ∉ others
  refused : ∀ t ∈ c.refusals deeds, t ∈ gone
  alive : (c.actAll deeds).isClosed = false
  fits : (c.actAll deeds).recency.Fitting
  before : ∀ moment, stamp = some moment → (c.actAll deeds).clock.timestamp < moment

/-- A cache in which no reads are noted, with an entry that was made for a key. What readers see
under the key is what was stored, or nothing. -/
structure Watched (c : Cache V) (strays : Serial → Prop) (key : String) (s : Serial) (value : V)
    (stamp : Option Nat) : Prop where
  arranged : ({ cache := c } : System V).Arranged
  unread : c.reads.sink.items = []
  ordered : c.outline.Ordered strays
  keyed : c.contents.keyOf s = some key
  slot : c.contents.occupant? key = some s ∨ c.contents.occupant? key = none
  reading : c.contents.reading key = some (value, stamp) ∨ c.contents.reading key = none

section Runs

variable {strays : Serial → Prop} {value : V} {stamp : Option Nat} {others : Finset String}
  {gone : List Serial} {deed : Deed V} {rest : List (Deed V)}

theorem Undisturbed.tail (h : c.Undisturbed (deed :: rest) key stamp others gone) :
    (c.act deed).Undisturbed rest key stamp others gone where
  written later hlater := h.written later (List.mem_cons_of_mem _ hlater)
  stored later hlater := h.stored later (List.mem_cons_of_mem _ hlater)
  excluded := h.excluded
  refused t ht := h.refused t (List.mem_append_right _ ht)
  alive := h.alive
  fits := h.fits
  before := h.before

theorem Undisturbed.later (h : c.Undisturbed (deed :: rest) key stamp others gone) :
    c.recency.Fitting ∧ (c.act deed).recency.Fitting ∧ (c.act deed).isClosed = false ∧
      ∀ moment, stamp = some moment → c.clock.timestamp < moment := by
  have hact := c.act_later deed
  have hrest := (c.act deed).actAll_later rest
  have hfits := hrest.grows.fitting h.fits
  refine ⟨hact.grows.fitting hfits, hfits, hrest.alive h.alive, ?_⟩
  intro moment hmoment
  have hbefore := h.before moment hmoment
  have hfirst := hact.timestamp
  have hsecond := hrest.timestamp
  rw [actAll_cons] at hbefore
  omega

theorem refusals_append (c : Cache V) (deeds more : List (Deed V)) :
    c.refusals (deeds ++ more) = c.refusals deeds ++ (c.actAll deeds).refusals more := by
  induction deeds generalizing c with
  | nil => rfl
  | cons deed rest ih =>
    change _ ++ (c.act deed).refusals (rest ++ more) = (_ ++ _) ++ _
    rw [ih, List.append_assoc]
    rfl

theorem Undisturbed.init {deeds more : List (Deed V)}
    (h : c.Undisturbed (deeds ++ more) key stamp others gone) :
    c.Undisturbed deeds key stamp others gone := by
  have hlater := (c.actAll deeds).actAll_later more
  rw [← actAll_append] at hlater
  refine ⟨fun deed hin => h.written deed (List.mem_append_left _ hin),
    fun deed hin => h.stored deed (List.mem_append_left _ hin), h.excluded, ?_,
    hlater.alive h.alive, hlater.grows.fitting h.fits, ?_⟩
  · intro t ht
    apply h.refused
    rw [refusals_append]
    exact List.mem_append_left _ ht
  · intro moment hmoment
    exact Nat.lt_of_le_of_lt hlater.timestamp (h.before moment hmoment)

theorem Watched.passes (h : c.Watched strays key s value stamp)
    (hrun : c.Undisturbed (deed :: rest) key stamp others gone) :
    c.outline.Passes (c.turn deed) key s others gone where
  stored other hact := by
    refine hrun.stored deed List.mem_cons_self other ?_
    cases deed with
    | store =>
      cases hact
      rfl
    | workFired =>
      rcases c.turn_workFired with heq | ⟨_, _, _, _, heq⟩ <;> rw [heq] at hact <;> cases hact
    | _ => cases hact
  excluded := hrun.excluded
  kept taken hact := by
    refine hrun.written deed List.mem_cons_self ?_
    cases deed with
    | discard =>
      cases hact
      rfl
    | workFired =>
      rcases c.turn_workFired with heq | ⟨_, _, _, _, heq⟩ <;> rw [heq] at hact <;> cases hact
    | _ => cases hact
  alive hact := by
    cases deed with
    | workFired =>
      rcases c.turn_workFired with heq | ⟨id, other, t, ht, heq⟩ <;> rw [heq] at hact
      · cases hact
      · -- A timer takes an entry only at its stamp, and it cannot have come to that.
        cases hact
        obtain ⟨hs, e, moment, he, hevict, hle⟩ := occupant_of_fallen ht
        obtain ⟨expireAt, hstamp, hmoment⟩ := Option.map_eq_some_iff.mp hevict
        have hkeyed := h.ordered.keyed other s hs
        rw [show c.outline.keyOf s = some key from h.keyed] at hkeyed
        cases hkeyed
        have hshown : c.contents.shown? s = some (e.key, e.value, some expireAt) := by
          unfold Contents.shown?
          rw [he, ← hstamp]
          rfl
        have hword := h.arranged.coherent.stamped s e.key e.value expireAt hshown
        have hreading : c.contents.reading key = some (e.value, some expireAt) := by
          rw [Contents.reading_of_occupant hs, hshown]
          rfl
        rcases h.reading with heq | hnone
        · rw [hreading] at heq
          cases heq
          have hbefore := hrun.later.2.2.2 expireAt rfl
          have hgrace := le_satAdd_left hword c.options.expireDelay.millis
          omega
        · rw [hreading] at hnone
          cases hnone
    | _ => cases hact
  recorded t ht := by
    rw [strayed?_turn] at ht
    refine hrun.refused t (List.mem_append_left _ ?_)
    exact Option.mem_toList.mpr ht

theorem Watched.step (h : c.Watched strays key s value stamp)
    (hrun : c.Undisturbed (deed :: rest) key stamp others gone) :
    Outline.Step c.options.capacity c.outline (c.turn deed) (c.act deed).outline ∧
      (c.act deed).Watched (fun t => strays t ∨ c.outline.strayed? (c.turn deed) = some t) key s
        value stamp := by
  obtain ⟨hbefore, hfits, halive, _⟩ := hrun.later
  have hstep := act_step h.arranged h.unread deed hfits hbefore halive
  have hmoves : ∀ move ∈ deed.moves c, move.storedKey? ≠ some key := by
    intro move hin heq
    refine hrun.written deed List.mem_cons_self ?_
    rw [← heq]
    cases deed with
    | store =>
      cases List.mem_singleton.mp hin
      rfl
    | discard other =>
      unfold Deed.moves at hin
      dsimp only at hin
      split at hin
      · cases List.mem_singleton.mp hin
        cases heq
      · split at hin <;> simp only [List.mem_cons, List.not_mem_nil, or_false] at hin <;>
          rcases hin with rfl | rfl <;> cases heq
    | advance =>
      simp only [Deed.moves, List.mem_cons, List.not_mem_nil, or_false] at hin
      rcases hin with rfl | rfl <;> cases heq
    | _ =>
      cases List.mem_singleton.mp hin
      cases heq
  have hreading := h.arranged.coherent.reading_run_unwritten hmoves
  rw [System.run_moves] at hreading
  refine ⟨hstep, h.arranged.act deed, (c.act_later deed).unread h.unread, h.ordered.step hstep,
    hstep.keyOf_eq h.keyed, ?_, ?_⟩
  · cases hslot : (c.act deed).contents.occupant? key with
    | none => exact Or.inr rfl
    | some t =>
      have hold := hstep.slot_of (h.passes hrun).not_store hslot
      rcases h.slot with heq | hnone
      · rw [show c.contents.occupant? key = some t from hold] at heq
        exact Or.inl heq
      · rw [show c.contents.occupant? key = some t from hold] at hnone
        cases hnone
  · rcases hreading with heq | hnone
    · rw [heq]
      exact h.reading
    · exact Or.inr hnone

theorem Watched.run (h : c.Watched strays key s value stamp)
    {deeds : List (Deed V)} (hrun : c.Undisturbed deeds key stamp others gone) :
    ∃ strays, (c.actAll deeds).Watched strays key s value stamp := by
  induction deeds generalizing c strays with
  | nil => exact ⟨strays, h⟩
  | cons deed rest ih => exact ih (h.step hrun).2 hrun.tail

/-- A slot that was emptied stays so. -/
theorem Watched.vacant_run (h : c.Watched strays key s value stamp) {deeds : List (Deed V)}
    (hrun : c.Undisturbed deeds key stamp others gone) (hvacant : c.contents.occupant? key = none) :
    (c.actAll deeds).contents.occupant? key = none := by
  induction deeds generalizing c strays with
  | nil => exact hvacant
  | cons deed rest ih =>
    obtain ⟨hstep, hnext⟩ := h.step hrun
    refine ih hnext hrun.tail ?_
    rw [Option.eq_none_iff_forall_ne_some]
    intro t ht
    have hold := hstep.slot_of (h.passes hrun).not_store ht
    rw [show c.contents.occupant? key = some t from hold] at hvacant
    cases hvacant

/-- A linked entry keeps its slot. -/
theorem Watched.ahead_run (h : c.Watched strays key s value stamp) {deeds : List (Deed V)}
    (hrun : c.Undisturbed deeds key stamp others gone)
    (hahead : c.outline.Ahead strays others gone key s)
    (hroom : others.card + gone.length < c.options.capacity) :
    (c.actAll deeds).contents.occupant? key = some s := by
  induction deeds generalizing c strays with
  | nil => exact hahead.slot
  | cons deed rest ih =>
    obtain ⟨hstep, hnext⟩ := h.step hrun
    refine ih hnext hrun.tail (hahead.step h.ordered hstep (h.passes hrun) hroom) ?_
    rw [(c.act_later deed).options]
    exact hroom

/-- An entry whose operation is queued keeps its slot if it has it when the worker comes to the
last one, and only then. -/
theorem Watched.awaiting_run (h : c.Watched strays key s value stamp) {deeds : List (Deed V)}
    (hrun : c.Undisturbed deeds key stamp others gone)
    (hawaiting : c.outline.Awaiting strays others gone key s)
    (hroom : others.card + gone.length < c.options.capacity)
    (hdrained : (c.actAll deeds).writes.items = []) :
    (c.actAll deeds).contents.occupant? key = some s ↔
      ∃ before after, deeds = before ++ .workWrite :: after ∧ (c.actAll before).Due key := by
  induction deeds generalizing c strays with
  | nil =>
    obtain ⟨before, op, after, hops, _⟩ := hawaiting.queue
    rw [show c.outline.ops = [] from hdrained] at hops
    simp at hops
  | cons deed rest ih =>
    obtain ⟨hstep, hnext⟩ := h.step hrun
    have hcapacity := (c.act_later deed).options
    have hshift : (∃ before after, rest = before ++ .workWrite :: after ∧
        ((c.act deed).actAll before).Due key) → ∃ before after,
          deed :: rest = before ++ .workWrite :: after ∧ (c.actAll before).Due key := by
      rintro ⟨before, after, rfl, hdue⟩
      exact ⟨deed :: before, after, rfl, hdue⟩
    by_cases hearly : c.turn deed = .work ∧ c.outline.Due s
    · obtain ⟨hwork, hdue⟩ := hearly
      cases turn_eq_work hwork
      rcases h.slot with hslot | hvacant
      · have hahead := hawaiting.link h.ordered hstep hdue hslot
        have hkept := hnext.ahead_run hrun.tail hahead (hcapacity ▸ hroom)
        exact ⟨fun _ => ⟨[], rest, rfl, s, hslot, hdue⟩, fun _ => hkept⟩
      · constructor
        · intro hslot
          rw [h.vacant_run hrun hvacant] at hslot
          cases hslot
        · rintro ⟨before, after, heq, t, ht, _⟩
          rw [heq] at hrun
          rw [h.vacant_run hrun.init hvacant] at ht
          cases ht
    · have hrest := ih hnext hrun.tail (hawaiting.step h.ordered hstep (h.passes hrun) hearly)
        (hcapacity ▸ hroom) hdrained
      rw [actAll_cons, hrest]
      refine ⟨hshift, ?_⟩
      rintro ⟨before, after, heq, hdue⟩
      cases before with
      | nil =>
        cases heq
        obtain ⟨t, ht, hdue⟩ := hdue
        change c.contents.occupant? key = some t at ht
        rcases h.slot with hslot | hvacant
        · rw [hslot] at ht
          cases ht
          exact absurd ⟨rfl, hdue⟩ hearly
        · rw [hvacant] at ht
          cases ht
      | cons first before =>
        cases heq
        exact ⟨before, after, rfl, hdue⟩

/-- An entry that no earlier operation can take the slot of keeps it. -/
theorem Watched.assured_run (h : c.Watched strays key s value stamp) {deeds : List (Deed V)}
    (hrun : c.Undisturbed deeds key stamp others gone)
    (hawaiting : c.outline.Awaiting strays others gone key s) (hassured : c.outline.Assured key s)
    (hroom : others.card + gone.length < c.options.capacity)
    (hdrained : (c.actAll deeds).writes.items = []) :
    (c.actAll deeds).contents.occupant? key = some s := by
  induction deeds generalizing c strays with
  | nil =>
    obtain ⟨before, op, after, hops, _⟩ := hawaiting.queue
    rw [show c.outline.ops = [] from hdrained] at hops
    simp at hops
  | cons deed rest ih =>
    obtain ⟨hstep, hnext⟩ := h.step hrun
    have hpasses := h.passes hrun
    have hcapacity := (c.act_later deed).options
    by_cases hearly : c.turn deed = .work ∧ c.outline.Due s
    · obtain ⟨hwork, hdue⟩ := hearly
      cases turn_eq_work hwork
      have hahead := hawaiting.link h.ordered hstep hdue hassured.slot
      exact hnext.ahead_run hrun.tail hahead (hcapacity ▸ hroom)
    · exact ih hnext hrun.tail (hawaiting.step h.ordered hstep hpasses hearly)
        (hassured.step h.ordered hstep hpasses hearly) (hcapacity ▸ hroom) hdrained

end Runs

/-! ## A write -/

theorem ordered_create {options : Options V} {clock : Clock} (h : create options clock = .ok c) :
    c.outline.Ordered fun _ => False := by
  have hvacant (other : String) (t : Serial) : c.outline.slot other ≠ some t := by
    intro ht
    rw [show c.outline.slot other = none from vacant_create h other] at ht
    cases ht
  obtain ⟨contents, hcontents, rfl⟩ := create_eq_ok h
  have hlisted : (Recency.withCapacity options.capacity).toList = [] :=
    (Recency.keeps_withCapacity _ (Contents.entry?_withShards hcontents)).toList_eq
  have hnone : ∀ t, t ∉ (Recency.withCapacity options.capacity).toList := by simp [hlisted]
  refine ⟨fun other t ht => absurd ht (hvacant other t), ?_, fun t ht => absurd ht (hnone t),
    nofun, nofun, nofun, fun other t _ ht => absurd ht (hvacant other t), .nil,
    fun t ht => absurd ht (hnone t), fun t ht => absurd ht (hnone t), ?_,
    fun t ht => absurd ht (hnone t), nofun⟩
  · change (Recency.withCapacity options.capacity).toList.Nodup
    rw [hlisted]
    exact List.nodup_nil
  · intro before op after t hops
    change [] = _ at hops
    simp at hops

theorem ordered_actAll (h : ({ cache := c } : System V).Arranged) (hreads : c.reads.sink.items = [])
    {strays : Serial → Prop} (hordered : c.outline.Ordered strays) {deeds : List (Deed V)}
    (halive : (c.actAll deeds).isClosed = false) (hfits : (c.actAll deeds).recency.Fitting) :
    ∃ strays, (c.actAll deeds).outline.Ordered strays := by
  induction deeds generalizing c strays with
  | nil => exact ⟨strays, hordered⟩
  | cons deed rest ih =>
    have hact := c.act_later deed
    have hrest := (c.act deed).actAll_later rest
    have hnext := hrest.grows.fitting hfits
    have hstep := act_step h hreads deed hnext (hact.grows.fitting hnext) (hrest.alive halive)
    exact ih (h.act deed) (hact.unread hreads) (hordered.step hstep) halive hfits

/-- A caller is told that a value was stored only if the operation was taken. -/
theorem lodge_of_store {value : V} {ttl : Span} {wait : Bool}
    (h : (c.store key value ttl wait).1 = true) : (c.lodge key value ttl wait).1 = true := by
  rw [store_eq] at h
  unfold submission at h
  cases htaken : (c.lodge key value ttl wait).1 with
  | true => rfl
  | false =>
    rw [htaken] at h
    cases h

end Cache

namespace Cache

variable {V : Type} {c : Cache V} {key : String}

/-- The operation for a value that was taken is queued last, for the entry under the key. -/
theorem lodge_taken {value : V} {ttl : Span} {wait : Bool} (h : c.contents.WellKeyed)
    (htaken : (c.lodge key value ttl wait).1 = true) :
    ∃ s op, op.upserted? = some s ∧
      (c.lodge key value ttl wait).2.writes.items = c.writes.items ++ [op] ∧
      (c.lodge key value ttl wait).2.contents.occupant? key = some s ∧
      (c.lodge key value ttl wait).2.contents.reading key =
        some (value, c.clock.stampAfter ttl) ∧
      (c.contents.occupant? key = none → s = c.nextSerial) := by
  have haccepts : c.accepts wait = true := (c.lodge_fst key value ttl wait).symm.trans htaken
  have hreading := (lodge_follows h key value ttl wait).reading
  rw [haccepts, Bool.or_true, if_pos rfl] at hreading
  have hshown := (congrFun hreading key).trans (if_pos rfl)
  cases hs : c.contents.occupant? key with
  | some s =>
    rw [lodge_of_occupant hs, if_pos haccepts] at hshown ⊢
    refine ⟨s, .update s, rfl, rfl, ?_, hshown, nofun⟩
    exact (Contents.occupant?_modify c.contents s _ key).trans hs
  | none =>
    rw [lodge_of_vacant hs, if_pos haccepts] at hshown ⊢
    refine ⟨c.nextSerial, .set c.nextSerial, rfl, rfl, ?_, hshown, fun _ => rfl⟩
    exact (Contents.occupant?_place_create c.contents key value _ key).trans (if_pos rfl)

/-- A cache whose callers have only written so far. -/
def Wrote (options : Options V) (c : Cache V) : Prop :=
  ∃ clock c₀ deeds, create options clock = .ok c₀ ∧ c = c₀.actAll deeds

variable {options : Options V}

theorem Wrote.basis (h : Wrote options c) : ({ cache := c } : System V).Arranged ∧
    c.reads.sink.items = [] ∧ c.options = options ∧
      (c.isClosed = false → c.recency.Fitting → ∃ strays, c.outline.Ordered strays) := by
  obtain ⟨clock, c₀, earlier, hcreate, rfl⟩ := h
  have hlater := c₀.actAll_later earlier
  have harranged := System.arranged_create hcreate
  have hunread : c₀.reads.sink.items = [] := by
    obtain ⟨contents, _, rfl⟩ := create_eq_ok hcreate
    rfl
  refine ⟨harranged.actAll earlier, hlater.unread hunread, ?_, ?_⟩
  · rw [hlater.options]
    exact options_create hcreate
  · exact fun halive hfits =>
      ordered_actAll harranged hunread (ordered_create hcreate) halive hfits

variable {value : V} {ttl : Span} {wait : Bool}

theorem Wrote.stored (hc : Wrote options c) (htaken : (c.lodge key value ttl wait).1 = true)
    (halive : (c.act (.store key value ttl wait)).isClosed = false)
    (hfits : (c.act (.store key value ttl wait)).recency.Fitting) :
    ∃ s strays,
      (c.act (.store key value ttl wait)).Watched strays key s value (c.clock.stampAfter ttl) ∧
      (∀ others gone, (c.act (.store key value ttl wait)).outline.Awaiting strays others gone key s) ∧
      (c.contents.occupant? key = none ∨ c.writes.items = [] →
        (c.act (.store key value ttl wait)).outline.Assured key s) := by
  obtain ⟨harranged, hunread, _, hordered⟩ := hc.basis
  have hact := c.act_later (.store key value ttl wait)
  have hbefore := hact.grows.fitting hfits
  obtain ⟨strays, hordered⟩ := hordered (hact.alive halive) hbefore
  have hstep := act_step harranged hunread (.store key value ttl wait) hfits hbefore halive
  obtain ⟨s, op, hop, hitems, hslot, hreading, hfresh⟩ :=
    lodge_taken harranged.coherent.keyed htaken
  have hrecency : (c.lodge key value ttl wait).2.recency = c.recency :=
    (c.lodge_frame key value ttl wait).2.2.1
  have hstored := hordered.step hstep
  have hkeyed := hstored.keyed key s hslot
  have hmade (hvacant : c.contents.occupant? key = none) : c.outline.keyOf s = none := by
    by_contra hne
    rw [hfresh hvacant] at hne
    exact Nat.lt_irrefl _ (keyOf_made hne)
  have hops : (c.act (.store key value ttl wait)).outline.ops = c.outline.ops ++ [op] := hitems
  have hlisted : (c.act (.store key value ttl wait)).outline.listed = c.outline.listed :=
    congrArg Recency.toList hrecency
  refine ⟨s, _, ⟨harranged.act _, hact.unread hunread, hstored, hkeyed, Or.inl hslot,
    Or.inl hreading⟩, ?_, ?_⟩
  · exact fun _ _ => ⟨hkeyed, c.writes.items, op, [], hops, hop, by simp⟩
  · rintro (hvacant | hidle)
    · refine ⟨hslot, Or.inl ?_, ?_⟩
      · rw [hlisted]
        exact fun hin => hordered.made s hin (hmade hvacant)
      · rw [hops]
        have hnone (a : WriteOp) (ha : a ∈ c.outline.ops) : a.upserted? ≠ some s :=
          fun heq => hordered.asked a ha s heq (hmade hvacant)
        refine List.pairwise_append.mpr ⟨?_, List.pairwise_singleton _ _, ?_⟩
        · exact List.pairwise_of_forall_mem_list fun a ha _ _ heq => absurd heq (hnone a ha)
        · exact fun a ha _ _ heq => absurd heq (hnone a ha)
    · have honly : (c.act (.store key value ttl wait)).outline.ops = [op] := by
        rw [hops]
        exact congrArg (· ++ [op]) hidle
      refine ⟨hslot, Or.inr ⟨op, [], honly, hop⟩, ?_⟩
      rw [honly]
      exact List.pairwise_singleton _ _

/-- Before the stamp the value is found just if the entry has its slot. -/
theorem Watched.get_iff {strays : Serial → Prop} {s : Serial} {stamp : Option Nat}
    (h : c.Watched strays key s value stamp)
    (hstamp : ∀ moment, stamp = some moment → c.clock.timestamp < moment) :
    (c.get key).1 = some value ↔ c.contents.occupant? key = some s := by
  have hsome := h.arranged.coherent.keyed.reading_isSome key
  rw [get_fst]
  unfold Readings.alive Readings.answer
  rcases h.slot with hslot | hvacant
  · rcases h.reading with heq | hnone
    · rw [heq, hslot]
      cases stamp with
      | none => simp
      | some moment => simp [hstamp moment rfl]
    · rw [hnone, hslot] at hsome
      cases hsome
  · rw [Contents.reading_of_vacant hvacant, hvacant]
    simp

/-- A stored value is found once the worker has drained the queue, if and only if its key still had
a slot when the worker came to the last operation queued for it. It is found, then, if the key was
absent or nothing was queued when it was stored. Fewer other keys must have been stored since than
the list has room for, and a deletion that was refused counts as one more, as it leaves its entry
listed. The index of a handle bounds the arena. -/
theorem get_of_stored (hc : Wrote options c) {later : List (Deed V)} {last : Cache V}
    (haccepted : (c.store key value ttl wait).1 = true)
    (hlast : (c.act (.store key value ttl wait)).actAll later = last)
    (hunwritten : ∀ deed ∈ later, deed.written? ≠ some key)
    (hroom : (later.filterMap Deed.stored?).toFinset.card +
      ((c.act (.store key value ttl wait)).refusals later).length < options.capacity)
    (hstamp : ∀ moment, c.clock.stampAfter ttl = some moment → last.clock.timestamp < moment)
    (halive : last.isClosed = false) (hdrained : last.writes.items = [])
    (hfits : options.capacity < Recency.maxPlaces ∨
      last.recency.nodes.size < Recency.maxPlaces) :
    ((last.get key).1 = some value ↔ ∃ before after, later = before ++ .workWrite :: after ∧
      ((c.act (.store key value ttl wait)).actAll before).Due key) ∧
    (c.contents.occupant? key = none ∨ c.writes.items = [] → (last.get key).1 = some value) := by
  subst hlast
  obtain ⟨harranged, _, hoptions, _⟩ := hc.basis
  have hact := c.act_later (.store key value ttl wait)
  have hrest := (c.act (.store key value ttl wait)).actAll_later later
  have hfitting : ((c.act (.store key value ttl wait)).actAll later).recency.Fitting := by
    have hcapacity := (hact.grows.trans hrest.grows).capacity
    rw [harranged.capacity, hoptions] at hcapacity
    unfold Recency.Fitting
    omega
  obtain ⟨s, strays, hwatched, hawaiting, hassured⟩ := hc.stored (lodge_of_store haccepted)
    (hrest.alive halive) (hrest.grows.fitting hfitting)
  have hrun : (c.act (.store key value ttl wait)).Undisturbed later key (c.clock.stampAfter ttl)
      (later.filterMap Deed.stored?).toFinset
      ((c.act (.store key value ttl wait)).refusals later) := by
    refine ⟨hunwritten, ?_, ?_, fun _ ht => ht, halive, hfitting, hstamp⟩
    · intro deed hdeed other hother
      exact List.mem_toFinset.mpr (List.mem_filterMap.mpr ⟨deed, hdeed, hother⟩)
    · intro hin
      obtain ⟨deed, hdeed, hkey⟩ := List.mem_filterMap.mp (List.mem_toFinset.mp hin)
      apply hunwritten deed hdeed
      cases deed <;> first | exact hkey | cases hkey
  have hroom' := hroom
  rw [← hoptions, ← hact.options] at hroom'
  obtain ⟨_, hend⟩ := hwatched.run hrun
  rw [hend.get_iff hstamp]
  refine ⟨hwatched.awaiting_run hrun (hawaiting _ _) hroom' hdrained, ?_⟩
  intro hearly
  exact hwatched.assured_run hrun (hawaiting _ _) (hassured hearly) hroom' hdrained

/-- The first value of a cache is found once the worker has linked it. -/
theorem get_of_stored_first :
    ∃ c last : Cache Nat, Wrote { capacity := 1 } c ∧ (c.store "k" 1 .zero false).1 = true ∧
      (c.act (.store "k" 1 .zero false)).actAll [.workWrite] = last ∧ (last.get "k").1 = some 1 := by
  let options : Options Nat := { capacity := 1 }
  have hshards : options.shards ≤ Store.maxShards := by decide
  obtain ⟨c, hc⟩ := exists_create hshards { unix := 0 }
  have hvacant := vacant_create hc "k"
  have hwrote : Wrote options c := ⟨_, c, [], hc, rfl⟩
  obtain ⟨contents, _, heq⟩ := create_eq_ok hc
  have htaken : (c.lodge "k" 1 .zero false).1 = true := by
    have haccepts : c.accepts false = true := by
      rw [heq]
      rfl
    rw [lodge_of_vacant hvacant, if_pos haccepts]
  have haccepted : (c.store "k" 1 .zero false).1 = true := by
    rw [store_eq, htaken]
    rfl
  obtain ⟨s, op, _, hitems, _⟩ := lodge_taken hwrote.basis.1.coherent.keyed htaken
  have hqueue : (c.lodge "k" 1 .zero false).2.writes.items = [op] := by
    rw [hitems, heq]
    rfl
  have halive : (c.lodge "k" 1 .zero false).2.workWrite.isClosed = false := by
    obtain ⟨hoptions, _, _, hclosed, _⟩ := c.lodge_frame "k" 1 .zero false
    have hexpiry : (c.lodge "k" 1 .zero false).2.expiry = c.expiry := by
      rw [lodge_of_vacant hvacant]
      split <;> rfl
    rw [workWrite_of_cons hqueue, isClosed_apply]
    · refine hclosed.trans ?_
      rw [heq]
    · change (c.lodge "k" 1 .zero false).2.options.Tame
      rw [hoptions, options_create hc]
      exact fun _ hhook => by rcases hhook with hnone | hnone <;> cases hnone
    · change (c.lodge "k" 1 .zero false).2.expiry.atLastTick = false
      rw [hexpiry, heq]
      rfl
  have hdrained : (c.lodge "k" 1 .zero false).2.workWrite.writes.items = [] := by
    obtain ⟨haside, hwrites, _⟩ := workWrite_aside hqueue
    rw [(haside.queues_of_alive halive).1, hwrites]
  have hlast : (c.act (.store "k" 1 .zero false)).actAll [.workWrite] =
      (c.lodge "k" 1 .zero false).2.workWrite := rfl
  have hroom : ([.workWrite].filterMap (Deed.stored? (V := Nat))).toFinset.card +
      ((c.act (.store "k" 1 .zero false)).refusals [.workWrite]).length < options.capacity := by
    simp [Deed.stored?, refusals, refused?, options]
  have hfound := get_of_stored hwrote haccepted hlast (by simp [Deed.written?]) hroom
    (fun _ hstamp => by cases hstamp) halive hdrained (Or.inl (by decide))
  exact ⟨c, _, hwrote, haccepted, hlast, hfound.2 (Or.inl hvacant)⟩

end Cache

end TimedCache
